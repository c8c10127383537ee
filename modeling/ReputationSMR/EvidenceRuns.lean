import ReputationSMR.DeliveryOrder

/-! Sequences of evidence within a view, of all three kinds. Every handler has its own test for
duplicates: the equivocation handler looks for the leader's entry, the other two search their row with
the help of a flag that outlives the search. As long as the flags are clear between two iterations,
evidence that was handled once is absorbed from then on. -/
namespace ReputationSMR

open Wire FiniteMap

inductive AnyEvidence where
  | equivocation (e : EquivocationEvidence)
  | record (m : Misbehaviour)

namespace AnyEvidence

def valid (p : Platform) (cfg : NodeConfig) (n : SyncHS) : AnyEvidence → Option Bool
  | equivocation e => isEqpEvidenceValid p cfg n e
  | record m => m.valid p cfg n

def handle (p : Platform) (cfg : NodeConfig) (n : SyncHS) : AnyEvidence → Outcome
  | equivocation e => equivocationEvidenceHandler p cfg n e
  | record m => m.handle p cfg n

def next (p : Platform) (cfg : NodeConfig) (n : SyncHS) (e : AnyEvidence) : Option SyncHS :=
  (e.handle p cfg n).map Prod.fst

/-- Every part that the check reads is present, and the nodes that it names have keys. -/
def Complete (cfg : NodeConfig) (n : SyncHS) : AnyEvidence → Prop
  | equivocation e => ∃ ev data, e.evidence = some ev ∧ ev.evidenceData = some data ∧
      ev.evOrigin ∈ cfg.nodeKeyMap ∧ n.leader ∈ cfg.nodeKeyMap
  | record (.proposal e) => ∃ ev data prop block, e.evidence = some ev ∧ ev.evidenceData = some data ∧
      e.e = some prop ∧ prop.block = some block ∧ ev.evOrigin ∈ cfg.nodeKeyMap ∧ prop.miner ∈ cfg.nodeKeyMap
  | record (.vote e) => ∃ ev data vote voteData body, e.evidence = some ev ∧ ev.evidenceData = some data ∧
      e.e = some vote ∧ vote.data = some voteData ∧ vote.body = some body ∧ ev.evOrigin ∈ cfg.nodeKeyMap ∧
      body.voter ∈ cfg.nodeKeyMap

end AnyEvidence

/-- The state after some evidence of any kind; `none` after a panic. -/
def SyncHS.handleAll (p : Platform) (cfg : NodeConfig) (n : SyncHS) (es : List AnyEvidence) : Option SyncHS :=
  es.foldlM (AnyEvidence.next p cfg) n

/-! ## What evidence changes -/

/-- Entries with value one are added to a row. -/
structure AddsOnes (view : Nat) (m m' : BehaviourMap) : Prop where
  new : ∀ v i x, at2 m' v i = some x → at2 m v i = some x ∨ (v = view ∧ x = 1)
  ones : ∀ v i, at2 m v i = some 1 → at2 m' v i = some 1
  known : ∀ i, i ∈ row m view → i ∈ row m' view

theorem AddsOnes.refl (view : Nat) (m : BehaviourMap) : AddsOnes view m m :=
  ⟨fun _ _ _ found => Or.inl found,fun _ _ found => found,fun _ found => found⟩

theorem AddsOnes.trans {view : Nat} {a b c : BehaviourMap} (first : AddsOnes view a b) (second : AddsOnes view b c) :
    AddsOnes view a c := by
  refine ⟨?_,fun v i found => second.ones v i (first.ones v i found),fun i found => second.known i (first.known i found)⟩
  intro v i x found
  rcases second.new v i x found with before | added
  · exact first.new v i x before
  · exact Or.inr added

theorem AddsOnes.put (view i : Nat) (m : BehaviourMap) : AddsOnes view m (put2 m view i 1) := by
  constructor
  · intro v j x found
    rw [at2_put2] at found
    split at found
    next here => exact Or.inr ⟨here.1,(Option.some.inj found).symm⟩
    next => exact Or.inl found
  · intro v j found
    rw [at2_put2]
    split
    next => rfl
    next => exact found
  · exact fun j found => (mem_row_put2 m view j i).mpr (Or.inr found)

/-- What the handling of evidence can do within a view: one empty block at most, with the entry of the
leader, and entries of value one. -/
structure EvidenceStep (p : Platform) (n n' : SyncHS) : Prop where
  view : n'.view = n.view
  leader : n'.leader = n.leader
  chain : (n'.bc = n.bc ∧ n'.certMap = n.certMap ∧ n'.equiproposalMap = n.equiproposalMap) ∨
    at2 n.equiproposalMap n.view n.leader ≠ some 1 ∧
      n'.equiproposalMap = n.equiproposalMap.insert n.view ((∅ : Map Nat Nat).insert n.leader 1) ∧
      ∃ cert, n.certMap.lookup n.bc.head = some cert ∧ n'.bc = { n.bc with head := n.bc.head + 1 }.store p
        (n.bc.head + 1) (createAnEmptyBlock p [] cert (n.bc.head + 1) emptyExtra)
  proposals : AddsOnes n.view n.maliproposalMap n'.maliproposalMap
  votes : AddsOnes n.view n.voteMaliMap n'.voteMaliMap

section Runs

variable {p : Platform} {cfg : NodeConfig} {n n' : SyncHS} {e e' : AnyEvidence}

theorem EvidenceStep.refl (n : SyncHS) : EvidenceStep p n n :=
  ⟨rfl,rfl,Or.inl ⟨rfl,rfl,rfl⟩,.refl _ _,.refl _ _⟩

theorem EvidenceStep.convicted (handled : EvidenceStep p n n') (convicted : at2 n.equiproposalMap n.view n.leader = some 1) :
    n'.bc = n.bc ∧ n'.certMap = n.certMap ∧ n'.equiproposalMap = n.equiproposalMap := by
  rcases handled.chain with same | ⟨unconvicted,_⟩
  · exact same
  · exact absurd convicted unconvicted

theorem at2_insert_leader (m : BehaviourMap) (view leader : Nat) :
    at2 (m.insert view ((∅ : Map Nat Nat).insert leader 1)) view leader = some 1 := by
  rw [at2_insert, if_pos rfl, lookup_insert, if_pos rfl]

theorem EvidenceStep.trans {n'' : SyncHS} (first : EvidenceStep p n n') (second : EvidenceStep p n' n'') :
    EvidenceStep p n n'' := by
  have proposals := second.proposals
  have votes := second.votes
  rw [first.view] at proposals votes
  refine ⟨second.view.trans first.view,second.leader.trans first.leader,?_,first.proposals.trans proposals,
    first.votes.trans votes⟩
  rcases first.chain with ⟨bc,certs,equivocations⟩ | ⟨unconvicted,inserted,cert,certified,grown⟩
  · have chain := second.chain
    rw [first.view, first.leader, bc, certs, equivocations] at chain
    exact chain
  · have convicted : at2 n'.equiproposalMap n'.view n'.leader = some 1 := by
      rw [inserted, first.view, first.leader]
      exact at2_insert_leader _ _ _
    obtain ⟨bc,_,equivocations⟩ := second.convicted convicted
    exact Or.inr ⟨unconvicted,equivocations.trans inserted,cert,certified,bc.trans grown⟩

theorem Misbehaviour.handled_put (m : Misbehaviour) (n : SyncHS) (i : Nat) : EvidenceStep p n (m.put n i) := by
  cases m with
  | proposal e => exact ⟨rfl,rfl,Or.inl ⟨rfl,rfl,rfl⟩,.put _ _ _,.refl _ _⟩
  | vote e => exact ⟨rfl,rfl,Or.inl ⟨rfl,rfl,rfl⟩,.refl _ _,.put _ _ _⟩

/-! ## Evidence that is absorbed -/

theorem AnyEvidence.handle_refused (refused : e.valid p cfg n = some false) :
    e.handle p cfg n = some (n,.none) := by
  cases e with
  | equivocation e =>
    have refused : isEqpEvidenceValid p cfg n e = some false := refused
    simp only [handle, equivocationEvidenceHandler, refused, ite_self]
  | record m =>
    cases m with
    | proposal e =>
      have refused : isMalipEvidenceValid p cfg n e = some false := refused
      simp only [handle, Misbehaviour.handle, maliciousProposalEvidenceHandler, refused]
    | vote e =>
      have refused : isMalivEvidenceValid p cfg n e = some false := refused
      simp only [handle, Misbehaviour.handle, maliciousVoteEvidenceHandler, refused]

/-- Why evidence is a duplicate in a state. -/
def AnyEvidence.Settled (p : Platform) (cfg : NodeConfig) (n : SyncHS) : AnyEvidence → Prop
  | equivocation e => at2 n.equiproposalMap n.view n.leader = some 1 ∨ isEqpEvidenceValid p cfg n e = some false ∨
      isEqpEvidenceValid p cfg n e = some true ∧ n.certMap.lookup n.bc.head = none
  | record m => m.valid p cfg n = some false ∨ m.valid p cfg n = some true ∧ ∃ t i, m.target = some t ∧
      m.culprit = some i ∧ (t ∈ row (m.map n) n.view ∨ at2 (m.map n) n.view i = some 1)

theorem AnyEvidence.Settled.handle (searched : n.Searched) (settled : e.Settled p cfg n) :
    e.handle p cfg n = some (n,.none) := by
  cases e with
  | equivocation e =>
    rcases settled with convicted | refused | ⟨valid,uncertified⟩
    · simp only [AnyEvidence.handle, equivocationEvidenceHandler, if_pos convicted]
    · exact AnyEvidence.handle_refused refused
    · simp only [AnyEvidence.handle, equivocationEvidenceHandler, valid, SyncHS.getCertForBlockIndex, uncertified,
        ite_self]
  | record m =>
    rcases settled with refused | ⟨valid,t,i,named,recorded,seen⟩
    · exact AnyEvidence.handle_refused refused
    · obtain ⟨t',i',named',recorded',ran⟩ := Misbehaviour.handle_accepts searched valid
      obtain rfl := Option.some.inj (named.symm.trans named')
      obtain rfl := Option.some.inj (recorded.symm.trans recorded')
      rw [AnyEvidence.handle, ran]
      split
      next => rfl
      next absent => rw [Misbehaviour.put_eq_self (seen.resolve_left absent)]

theorem equivocation_settles {e : EquivocationEvidence} {effect : Effect} (searched : n.Searched)
    (ran : equivocationEvidenceHandler p cfg n e = some (n',effect)) :
    n'.Searched ∧ EvidenceStep p n n' ∧ (AnyEvidence.equivocation e).Settled p cfg n' := by
  simp only [equivocationEvidenceHandler, SyncHS.getCertForBlockIndex] at ran
  split at ran
  next convicted =>
    obtain ⟨rfl,_⟩ := Prod.mk.inj (Option.some.inj ran)
    exact ⟨searched,.refl _,Or.inl convicted⟩
  next unconvicted =>
    split at ran
    next => contradiction
    next refused =>
      obtain ⟨rfl,_⟩ := Prod.mk.inj (Option.some.inj ran)
      exact ⟨searched,.refl _,Or.inr (Or.inl refused)⟩
    next valid =>
      split at ran
      next uncertified =>
        obtain ⟨rfl,_⟩ := Prod.mk.inj (Option.some.inj ran)
        exact ⟨searched,.refl _,Or.inr (Or.inr ⟨valid,uncertified⟩)⟩
      next cert certified =>
        obtain ⟨rfl,_⟩ := Prod.mk.inj (Option.some.inj ran)
        have inserted : SyncHS.recordLeader n.equiproposalMap n.view n.leader =
            n.equiproposalMap.insert n.view ((∅ : Map Nat Nat).insert n.leader 1) := if_neg unconvicted
        refine ⟨searched,⟨rfl,rfl,Or.inr ⟨unconvicted,inserted,cert,certified,rfl⟩,.refl _ _,.refl _ _⟩,Or.inl ?_⟩
        exact (congrArg (fun m => at2 m n.view n.leader) inserted).trans (at2_insert_leader _ _ _)

theorem Misbehaviour.put_settles {m : Misbehaviour} {t i : Nat} (searched : n.Searched)
    (valid : m.valid p cfg n = some true) (named : m.target = some t) (recorded : m.culprit = some i) :
    (m.put n i).Searched ∧ EvidenceStep p n (m.put n i) ∧ (AnyEvidence.record m).Settled p cfg (m.put n i) := by
  have handled : EvidenceStep p n (m.put n i) := m.handled_put n i
  have valid' : m.valid p cfg (m.put n i) = some true := (m.valid_congr handled.view handled.leader).trans valid
  refine ⟨?_,handled,Or.inr ⟨valid',t,i,named,recorded,Or.inr ?_⟩⟩
  · cases m <;> exact searched
  · cases m <;> exact (at2_put2 _ _ _ _ _ _).trans (if_pos ⟨rfl,rfl⟩)

theorem record_settles {m : Misbehaviour} {effect : Effect} (searched : n.Searched)
    (ran : m.handle p cfg n = some (n',effect)) :
    n'.Searched ∧ EvidenceStep p n n' ∧ (AnyEvidence.record m).Settled p cfg n' := by
  have decided : m.valid p cfg n = some true ∨ m.valid p cfg n = some false ∨ m.valid p cfg n = none := by
    rcases m.valid p cfg n with _ | (_ | _) <;> simp
  rcases decided with valid | refused | panics
  · obtain ⟨t,i,named,recorded,same⟩ := Misbehaviour.handle_accepts searched valid
    obtain ⟨rfl,_⟩ := Prod.mk.inj (Option.some.inj (ran.symm.trans same))
    split
    next seen => exact ⟨searched,.refl _,Or.inr ⟨valid,t,i,named,recorded,Or.inl seen⟩⟩
    next => exact Misbehaviour.put_settles searched valid named recorded
  · have kept : m.handle p cfg n = some (n,.none) := AnyEvidence.handle_refused (e := .record m) refused
    obtain ⟨rfl,_⟩ := Prod.mk.inj (Option.some.inj (ran.symm.trans kept))
    exact ⟨searched,.refl _,Or.inl refused⟩
  · have none := Misbehaviour.handle_unless (show m.valid p cfg n ≠ some true by simp [panics])
    rw [panics, ran] at none
    contradiction

theorem AnyEvidence.next_settles (searched : n.Searched) (moved : e.next p cfg n = some n') :
    n'.Searched ∧ EvidenceStep p n n' ∧ e.Settled p cfg n' := by
  obtain ⟨⟨_,effect⟩,ran,rfl⟩ := Option.map_eq_some_iff.mp moved
  cases e with
  | equivocation e => exact equivocation_settles searched ran
  | record m => exact record_settles searched ran

theorem AnyEvidence.Settled.handled (settled : e.Settled p cfg n) (handled : EvidenceStep p n n') : e.Settled p cfg n' := by
  cases e with
  | equivocation e =>
    have valid : isEqpEvidenceValid p cfg n' e = isEqpEvidenceValid p cfg n e := by
      simp only [isEqpEvidenceValid, isEnvelopeValid, handled.view, handled.leader]
    rcases handled.chain with ⟨bc,certs,equivocations⟩ | ⟨_,inserted,_⟩
    · rcases settled with convicted | refused | ⟨accepted,uncertified⟩
      · left
        rw [equivocations, handled.view, handled.leader]
        exact convicted
      · exact Or.inr (Or.inl (valid.trans refused))
      · refine Or.inr (Or.inr ⟨valid.trans accepted,?_⟩)
        rw [bc, certs]
        exact uncertified
    · left
      rw [inserted, handled.view, handled.leader]
      exact at2_insert_leader _ _ _
  | record m =>
    have map : AddsOnes n.view (m.map n) (m.map n') := by
      cases m
      · exact handled.proposals
      · exact handled.votes
    have valid : m.valid p cfg n' = m.valid p cfg n := m.valid_congr handled.view handled.leader
    rcases settled with refused | ⟨accepted,t,i,named,recorded,seen⟩
    · exact Or.inl (valid.trans refused)
    · refine Or.inr ⟨valid.trans accepted,t,i,named,recorded,?_⟩
      rw [handled.view]
      exact seen.imp (map.known t) (map.ones _ i)

/-! ## Complete evidence does not panic -/

theorem signedBy_known {id : Nat} (known : id ∈ cfg.nodeKeyMap) (data sig : Bytes) :
    (signedBy p cfg id data sig).isSome := by
  rw [signedBy, getPubKeyFromID, if_pos known]
  rfl

theorem andThen_isSome {first second : Option Bool} (here : first.isSome) (there : second.isSome) :
    (andThen first second).isSome := by
  obtain ⟨_ | _,rfl⟩ := Option.isSome_iff_exists.mp here
  · rfl
  · exact there

theorem isEnvelopeValid_known {ev : Evidence} (known : ev.evOrigin ∈ cfg.nodeKeyMap) (data : EvidenceData) :
    (isEnvelopeValid p cfg n ev data).isSome := by
  rw [isEnvelopeValid]
  split
  next => rfl
  next => exact signedBy_known known _ _

theorem AnyEvidence.Complete.valid (complete : e.Complete cfg n) : (e.valid p cfg n).isSome := by
  cases e with
  | equivocation e =>
    obtain ⟨ev,data,sent,named,origin,leader⟩ := complete
    simp only [AnyEvidence.valid, isEqpEvidenceValid, sent, named, Option.bind_eq_bind, Option.bind_some]
    split
    next => rfl
    next =>
      exact andThen_isSome (isEnvelopeValid_known origin data)
        (andThen_isSome (signedBy_known leader _ _) (signedBy_known leader _ _))
  | record m =>
    cases m with
    | proposal e =>
      obtain ⟨ev,data,prop,block,sent,named,inside,mined,origin,miner⟩ := complete
      simp only [AnyEvidence.valid, Misbehaviour.valid, isMalipEvidenceValid, sent, named, inside, mined,
        Option.bind_eq_bind, Option.bind_some]
      split
      next => rfl
      next => exact andThen_isSome (isEnvelopeValid_known origin data) (signedBy_known miner _ _)
    | vote e =>
      obtain ⟨ev,data,vote,voteData,body,sent,named,inside,cast,shape,origin,voter⟩ := complete
      simp only [AnyEvidence.valid, Misbehaviour.valid, isMalivEvidenceValid, sent, named, inside, cast, shape,
        Option.bind_eq_bind, Option.bind_some]
      exact andThen_isSome (isEnvelopeValid_known origin data) (signedBy_known voter _ _)

theorem AnyEvidence.Complete.next (searched : n.Searched) (complete : e.Complete cfg n) :
    ∃ n', e.next p cfg n = some n' := by
  obtain ⟨accepted,decided⟩ := Option.isSome_iff_exists.mp (complete.valid (p := p))
  cases accepted with
  | false => exact ⟨n,by rw [AnyEvidence.next, AnyEvidence.handle_refused decided]; rfl⟩
  | true =>
    cases e with
    | equivocation e =>
      have valid : isEqpEvidenceValid p cfg n e = some true := decided
      simp only [AnyEvidence.next, AnyEvidence.handle, equivocationEvidenceHandler, valid]
      split
      next => exact ⟨_,rfl⟩
      next => split <;> exact ⟨_,rfl⟩
    | record m =>
      obtain ⟨t,i,_,_,ran⟩ := Misbehaviour.handle_accepts searched decided
      exact ⟨_,by rw [AnyEvidence.next, AnyEvidence.handle, ran]; rfl⟩

theorem AnyEvidence.Complete.handled (complete : e.Complete cfg n) (handled : EvidenceStep p n n') :
    e.Complete cfg n' := by
  cases e with
  | equivocation e =>
    simp only [AnyEvidence.Complete, handled.leader]
    exact complete
  | record m => cases m <;> exact complete

theorem handleAll_total (searched : n.Searched) {es : List AnyEvidence} (complete : ∀ e ∈ es, e.Complete cfg n) :
    ∃ n', n.handleAll p cfg es = some n' := by
  induction es generalizing n with
  | nil => exact ⟨n,rfl⟩
  | cons e rest ih =>
    obtain ⟨u,moved⟩ := (complete e List.mem_cons_self).next (p := p) searched
    obtain ⟨kept,handled,_⟩ := AnyEvidence.next_settles searched moved
    obtain ⟨n',done⟩ := ih kept fun e' member => (complete e' (List.mem_cons_of_mem e member)).handled handled
    refine ⟨n',?_⟩
    rw [SyncHS.handleAll, List.foldlM_cons, moved]
    exact done

/-! ## The flags between two iterations -/

/-- The handlers clear the flag that they have set before the iteration ends. -/
theorem runJob_searched {order : List Nat} {job : Job} {effect : Effect} (searched : n.Searched)
    (ran : runJob p cfg n order job = some (n',effect)) : n'.Searched := by
  have record (m : Misbehaviour) (ran : m.handle p cfg n = some (n',effect)) : n'.Searched :=
    (record_settles searched ran).1
  have unread {job : Job} (case : JobCase p cfg n order job n' effect) (proposal : ∀ e, job ≠ .maliProEvidenceChannel e)
      (vote : ∀ e, job ≠ .maliVoteEvidenceChannel e) : n'.Searched := by
    cases case with
    | read _ _ _ step => exact (step.unread SyncHS.Searched fun _ _ _ _ _ _ => rfl) ▸ searched
    | voteHandled _ _ _ step => exact (step.unread SyncHS.Searched fun _ _ _ => rfl) ▸ searched
    | started _ _ step => exact (step.unread SyncHS.Searched fun _ _ _ _ _ _ _ => rfl) ▸ searched
    | maliProIgnored e _ => exact absurd rfl (proposal e)
    | maliProRecorded e _ _ _ _ => exact absurd rfl (proposal e)
    | maliVoteIgnored e _ => exact absurd rfl (vote e)
    | maliVoteRecorded e _ _ _ _ _ _ => exact absurd rfl (vote e)
    | _ => exact searched
  cases job with
  | maliProEvidenceChannel e => exact record (.proposal e) ran
  | maliVoteEvidenceChannel e => exact record (.vote e) ran
  | _ => exact unread (runJob_cases ran) (by simp) (by simp)

theorem searched_of_run {trace : List NodeEvent} {node : Node} (run : (nodeMachine p cfg).Run .init trace node) :
    node.state.Searched := by
  refine run.invariant (I := fun node => node.state.Searched) ⟨rfl,rfl⟩ ?_
  intro node event node' searched _ moved
  obtain ⟨⟨_,sends⟩,stepped,rfl⟩ := Option.map_eq_some_iff.mp moved
  cases event with
  | work index order =>
    cases found : node.pending[index]? with
    | none => simp [Node.step, found] at stepped
    | some job =>
      simp only [Node.step, found] at stepped
      obtain ⟨⟨n',effect⟩,ran,same⟩ := Option.map_eq_some_iff.mp stepped
      obtain ⟨rfl,rfl⟩ := Prod.mk.inj same
      exact runJob_searched searched ran
  | connect =>
    obtain ⟨rfl,_⟩ := Prod.mk.inj (Option.some.inj stepped)
    exact searched
  | receive m =>
    obtain ⟨rfl,_⟩ := Prod.mk.inj (Option.some.inj stepped)
    exact searched
  | command cmd =>
    cases node_cases stepped with
    | commanded _ _ _ case =>
      cases case with
      | pooled _ _ _ _ _ _ => exact searched
  | callback =>
    cases node_cases stepped with
    | calledBack _ _ case => cases case <;> exact searched

/-! ## Sequences -/

theorem handleAll_run (searched : n.Searched) {es : List AnyEvidence} (done : n.handleAll p cfg es = some n') :
    n'.Searched ∧ EvidenceStep p n n' ∧ ∀ e ∈ es, e.Settled p cfg n' := by
  have keeps (e : AnyEvidence) (s t : SyncHS) (kept : s.Searched) (moved : e.next p cfg s = some t) :=
    AnyEvidence.next_settles kept moved
  obtain ⟨final,step⟩ := Guarded.foldlM_relates (R := EvidenceStep p) (I := SyncHS.Searched) .refl
    (fun _ _ _ first second => first.trans second)
    (fun e s t kept moved => ⟨(keeps e s t kept moved).1,(keeps e s t kept moved).2.1⟩) searched done
  refine ⟨final,step,?_⟩
  refine Guarded.foldlM_settles (f := fun n e => AnyEvidence.next p cfg n e) (I := SyncHS.Searched)
    (S := fun n e => e.Settled p cfg n) ?_ ?_ ?_ searched done
  · exact fun e s t kept moved => (keeps e s t kept moved).1
  · exact fun e s t kept moved => (keeps e s t kept moved).2.2
  · exact fun e e' s t kept settled moved => settled.handled (keeps e' s t kept moved).2.1

/-- Evidence handling is atomic and idempotent where the search flags are clear, as they are in every
state of a run: refused evidence changes nothing, evidence that was handled changes nothing when it
comes again, and a sequence adds one empty block, one entry for the leader and entries of value one
at most. Complete evidence does not panic. -/
theorem evidence_atomic_idempotent :
    (∀ trace node, (nodeMachine p cfg).Run .init trace node → node.state.Searched) ∧
    ∀ n : SyncHS, n.Searched → ∀ es : List AnyEvidence,
      ((∀ e ∈ es, e.Complete cfg n) → ∃ n', n.handleAll p cfg es = some n') ∧
      ∀ n', n.handleAll p cfg es = some n' →
        (∀ e : AnyEvidence, e.valid p cfg n' = some false → e.handle p cfg n' = some (n',.none)) ∧
        (∀ e ∈ es, e.handle p cfg n' = some (n',.none)) ∧
        (n'.bc = n.bc ∨ ∃ cert, n.certMap.lookup n.bc.head = some cert ∧
          n'.bc = { n.bc with head := n.bc.head + 1 }.store p (n.bc.head + 1)
            (createAnEmptyBlock p [] cert (n.bc.head + 1) emptyExtra)) ∧
        (n'.equiproposalMap = n.equiproposalMap ∨
          n'.equiproposalMap = n.equiproposalMap.insert n.view ((∅ : Map Nat Nat).insert n.leader 1)) ∧
        (∀ v i x, at2 n'.maliproposalMap v i = some x → at2 n.maliproposalMap v i = some x ∨ v = n.view ∧ x = 1) ∧
        ∀ v i x, at2 n'.voteMaliMap v i = some x → at2 n.voteMaliMap v i = some x ∨ v = n.view ∧ x = 1 := by
  refine ⟨fun _ _ run => searched_of_run run,?_⟩
  intro n searched es
  refine ⟨fun complete => handleAll_total searched complete,?_⟩
  intro n' done
  obtain ⟨final,step,settled⟩ := handleAll_run searched done
  refine ⟨fun e refused => AnyEvidence.handle_refused refused,fun e member => (settled e member).handle final,?_,?_,
    step.proposals.new,step.votes.new⟩
  · rcases step.chain with ⟨bc,_,_⟩ | ⟨_,_,cert,certified,grown⟩
    · exact Or.inl bc
    · exact Or.inr ⟨cert,certified,grown⟩
  · rcases step.chain with ⟨_,_,same⟩ | ⟨_,inserted,_⟩
    · exact Or.inl same
    · exact Or.inr inserted

end Runs

def leaderEvidence : AnyEvidence :=
  let prop := newCandidateProposal transparent (nodeOfFour 0) .init [] genesisCert 1 []
  .equivocation ⟨some (signEvidence transparent (nodeOfFour 3) ⟨0,1⟩),some prop,some prop⟩

/-- All three kinds, some of it twice and some of it refused. -/
def mixedEvidence : List AnyEvidence :=
  [leaderEvidence,.record (proposalEvidence 2 2),.record (voteEvidence 3 3),leaderEvidence,
    .record (proposalEvidence 0 3),.record (proposalEvidence 1 3),.record (proposalEvidence 2 2)]

theorem mixedEvidence_absorbed :
    ∃ n', SyncHS.init.handleAll transparent (nodeOfFour 1) mixedEvidence = some n' ∧
      (∀ e ∈ mixedEvidence, e.handle transparent (nodeOfFour 1) n' = some (n',.none)) ∧
      n'.bc.head = 1 ∧ at2 n'.equiproposalMap 1 0 = some 1 := by
  have complete : ∀ e ∈ mixedEvidence, e.Complete (nodeOfFour 1) .init := by
    simp only [mixedEvidence, List.forall_mem_cons]
    exact ⟨⟨_,_,rfl,rfl,by decide,by decide⟩,⟨_,_,_,_,rfl,rfl,rfl,rfl,by decide,by decide⟩,
      ⟨_,_,_,_,_,rfl,rfl,rfl,rfl,rfl,by decide,by decide⟩,⟨_,_,rfl,rfl,by decide,by decide⟩,
      ⟨_,_,_,_,rfl,rfl,rfl,rfl,by decide,by decide⟩,⟨_,_,_,_,rfl,rfl,rfl,rfl,by decide,by decide⟩,
      ⟨_,_,_,_,rfl,rfl,rfl,rfl,by decide,by decide⟩,by simp⟩
  obtain ⟨total,runs⟩ := (@evidence_atomic_idempotent transparent (nodeOfFour 1)).2 .init ⟨rfl,rfl⟩ mixedEvidence
  obtain ⟨n',done⟩ := total complete
  have recorded : (SyncHS.init.handleAll transparent (nodeOfFour 1) mixedEvidence).map
      (fun n => (n.bc.head,at2 n.equiproposalMap 1 0)) = some (1,some 1) := by decide +kernel
  rw [done, Option.map_some, Option.some.injEq, Prod.mk.injEq] at recorded
  exact ⟨n',done,(runs n' done).2.1,recorded.1,recorded.2⟩

-- The flags have to be clear: with one left set the first evidence would be taken for a duplicate.
example : let n := { SyncHS.init with maliProspoalExists := true, maliproposalMap := put2 ∅ 1 3 1 }
    (n.handleAll transparent (nodeOfFour 1) [.record (proposalEvidence 2 2)]).map
      (fun n => at2 n.maliproposalMap 1 2) = some none ∧
    (n.handleAll transparent (nodeOfFour 1) [.record (proposalEvidence 2 2),.record (proposalEvidence 2 2)]).map
      (fun n => at2 n.maliproposalMap 1 2) = some (some 1) := by
  constructor <;> decide +kernel

end ReputationSMR

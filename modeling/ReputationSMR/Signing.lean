import ReputationSMR.Authenticity

/-! What honest nodes sign. Headers, votes and evidence are signed with one key and without
a mark that tells them apart, so the data are read back with the decoder of vote data: a
header has view zero and its height in the place of the owner, evidence has no block hash,
and votes and evidence name the view of their sender. -/
namespace ReputationSMR

open Wire FiniteMap

/-- The height of the header that has these bytes; none for the data of a vote or of
evidence. -/
def headerHeight (data : Bytes) : Option Nat :=
  if (ProtoVoteData.unmarshal data).view = 0 then some (ProtoVoteData.unmarshal data).owner else none

theorem headerHeight_header (h : ProtoHeader) : headerHeight h.marshal = some h.height := by
  rw [headerHeight, h.unmarshal_marshal, if_pos rfl]

theorem headerHeight_vote (d : ProtoVoteData) (started : 1 ≤ d.view) : headerHeight d.marshal = none := by
  rw [headerHeight, d.unmarshal_marshal, if_neg (by omega)]

theorem headerHeight_evidence (d : EvidenceData) (started : 1 ≤ d.view) : headerHeight d.marshal = none := by
  rw [headerHeight, d.unmarshal_marshal, if_neg (by change d.view ≠ 0; omega)]

/-! ## The signatures of one job -/

/-- No honest node is made to propose twice or out of turn. -/
def Cluster.Sincere (c : Cluster) : Prop :=
  ∀ i ∈ c.honestNodes, (c.config i).timerMode ≠ .equivocation ∧ (c.config i).timerMode ≠ .maliciousProposal

/-- What a job signs, apart from a proposal whose draft is signed already. -/
inductive Signs (p : Platform) (cfg : NodeConfig) (n n' : SyncHS) : Job → Bytes → Prop where
  | forwarded (prop : Proposal) (ep : ExtProposal) : ExtProposal.fromProto p prop = some ep →
      checkProposal p cfg n ep = some true → Signs p cfg n n' (.forward prop) (marshalHeader prop.getHeader)
  | proposed (cert : BlockCertificate) : n.leader = cfg.id → n.certMap.lookup n.bc.head = some cert →
      (extension p cfg n .round).isSome → n'.bc.head = n.bc.head + 1 →
      Signs p cfg n n' .round (newHeader p cert (n.bc.head + 1) []).marshal
  | injected (cert : BlockCertificate) (extra : Bytes) :
      cfg.timerMode = .equivocation ∨ cfg.timerMode = .maliciousProposal →
      Signs p cfg n n' .round (newHeader p cert (n.bc.head + 1) extra).marshal
  | led (fprop : Proposal) (ep : ExtProposal) : Accepted p cfg n fprop ep →
      cfg.pMap.card ≤ size (n.forwardsWith fprop) → cfg.id = n.leader →
      Signs p cfg n n' (.proposeChannel fprop) (voteDataFor p n ep).marshal
  | voted (ep : ExtProposal) : Signs p cfg n n' (.vote ep) (voteDataFor p n ep).marshal
  | misvoted (ep : ExtProposal) : n.maliciousVoteInject = true →
      Signs p cfg n n' (.vote ep) (ProtoVoteData.mk invalidBlockHash n.view cfg.id).marshal
  | accused (job : Job) (target : Nat) : Signs p cfg n n' job (EvidenceData.mk target n.view).marshal

section Jobs

variable {p : Platform} {cfg : NodeConfig} {n n' : SyncHS} {job : Job} {effect : Effect} {data : Bytes}

theorem Effect.none_signs : ¬Effect.none.signs data := by
  simp [Effect.signs,none]

theorem Effect.signs_single {next : Job} {m : SyncHSMsg} (draft : next.draft = Option.none)
    (signs : Effect.signs ⟨[next],[.broadcast m],[]⟩ data) : data ∈ m.signedData := by
  rcases signs with sent | ⟨other,member,drafted⟩
  · simpa [Outgoing.messages] using sent
  · rw [List.mem_singleton.mp member, draft] at drafted
    contradiction

theorem RoundCase.signs (step : RoundCase p cfg n n' effect) (signs : effect.signs data) :
    Signs p cfg n n' .round data := by
  cases step with
  | idle _ _ _ _ | withholds _ _ => exact absurd signs Effect.none_signs
  | proposes withheld cert flag leader noWithholding noEquivocation found enough =>
    have block : (extension p cfg n .round).isSome := by
      simp only [extension]
      rw [if_neg noWithholding, if_pos ⟨leader,enough,noEquivocation⟩]
      simp [SyncHS.nextBlock,found]
    rcases signs with sent | ⟨next,member,drafted⟩
    · contradiction
    · rw [List.mem_singleton.mp member] at drafted
      obtain rfl := Option.some.inj drafted
      exact .proposed cert leader found block rfl
  | equivocates commands cmds cert mode =>
    rcases signs with sent | ⟨next,member,_⟩
    · rcases List.mem_cons.mp sent with rfl | sent
      · exact .injected cert _ (Or.inl mode)
      · obtain rfl := List.mem_singleton.mp sent
        exact .injected cert _ (Or.inl mode)
    · contradiction
  | intrudes commands cmds cert mode =>
    obtain rfl := List.mem_singleton.mp (Effect.signs_single rfl signs)
    exact .injected cert _ (Or.inr mode)

theorem ForwardStep.signs {fprop : Proposal} (step : ForwardStep p cfg n fprop n' effect) (signs : effect.signs data) :
    Signs p cfg n n' (.proposeChannel fprop) data := by
  cases step with
  | flagged _ | refused _ _ _ _ | counted _ _ _ _ => exact absurd signs Effect.none_signs
  | conflict ep ep2 _ _ _ =>
    split at signs
    next => simp [Effect.signs,Job.draft] at signs
    next => exact absurd signs Effect.none_signs
  | leads ep accepted _ full leader =>
    obtain rfl := List.mem_singleton.mp (Effect.signs_single rfl signs)
    exact .led fprop ep accepted full leader
  | follows ep _ _ _ _ => simp [Effect.signs,Job.draft] at signs

theorem VoteStep.signs {v : ProtoVote} {order : List Nat} (step : VoteStep p cfg n v order n' effect) :
    ¬effect.signs data := by
  cases step with
  | foreign d _ _ => simp [Effect.signs,Job.draft]
  | dropped d _ _ _ => exact Effect.none_signs
  | counted d n' effect _ counted =>
    cases counted with
    | late _ | pooled _ _ _ => exact Effect.none_signs
    | certifies _ _ _ => simp [Effect.signs,Job.draft]

theorem JobCase.signs {order : List Nat} (step : JobCase p cfg n order job n' effect) (signs : effect.signs data) :
    job.draft = some data ∨ Signs p cfg n n' job data := by
  cases step with
  | read _ _ _ step => exact Or.inr (step.signs signs)
  | voteHandled _ _ _ step => exact absurd signs step.signs
  | started _ _ step => exact Or.inr (step.signs signs)
  | forwarded prop ep decoded checked =>
    obtain rfl := List.mem_singleton.mp (Effect.signs_single rfl signs)
    exact Or.inr (.forwarded prop ep decoded checked)
  | announced prop =>
    refine Or.inl ?_
    have same : data = marshalHeader prop.getHeader := by
      simpa [Effect.signs,Outgoing.messages,SyncHSMsg.signedData] using signs
    rw [same]
    rfl
  | voted ep _ =>
    obtain rfl := List.mem_singleton.mp (Effect.signs_single rfl signs)
    exact Or.inr (.voted ep)
  | misvoted ep _ injected =>
    obtain rfl := List.mem_singleton.mp (Effect.signs_single rfl signs)
    exact Or.inr (.misvoted ep injected)
  | intruderReported _ _ | eqEvidenceSent _ _ | malivoteEvidenceSent _ =>
    obtain rfl := List.mem_singleton.mp (Effect.signs_single rfl signs)
    exact Or.inr (.accused _ _)
  | _ => exact absurd signs Effect.none_signs

theorem Signs.header {h : Nat} (signs : Signs p cfg n n' job data) (started : 1 ≤ n.view)
    (sincere : cfg.timerMode ≠ .equivocation ∧ cfg.timerMode ≠ .maliciousProposal)
    (height : headerHeight data = some h) : (∃ prop ep, job = .forward prop ∧ ExtProposal.fromProto p prop = some ep ∧
        checkProposal p cfg n ep = some true ∧ data = marshalHeader prop.getHeader) ∨
      ∃ cert, job = .round ∧ n.leader = cfg.id ∧ n.certMap.lookup n.bc.head = some cert ∧
        (extension p cfg n .round).isSome ∧ n'.bc.head = n.bc.head + 1 ∧
        data = (newHeader p cert (n.bc.head + 1) []).marshal := by
  cases signs with
  | forwarded prop ep decoded checked => exact Or.inl ⟨prop,ep,rfl,decoded,checked,rfl⟩
  | proposed cert leader found block extended => exact Or.inr ⟨cert,rfl,leader,found,block,extended,rfl⟩
  | injected cert extra mode => exact absurd mode (not_or.mpr sincere)
  | led fprop ep _ _ _ =>
    rw [headerHeight_vote _ started] at height
    contradiction
  | voted ep =>
    rw [headerHeight_vote _ started] at height
    contradiction
  | misvoted ep _ =>
    rw [headerHeight_vote _ started] at height
    contradiction
  | accused _ target =>
    rw [headerHeight_evidence _ started] at height
    contradiction

theorem Signs.vote {d : ProtoVoteData} (signs : Signs p cfg n n' job d.marshal) (started : 1 ≤ d.view)
    (hash : d.blockHash ≠ []) : (∃ fprop ep, job = .proposeChannel fprop ∧ Accepted p cfg n fprop ep ∧
        cfg.pMap.card ≤ size (n.forwardsWith fprop) ∧ d = voteDataFor p n ep) ∨
      (∃ ep, job = .vote ep ∧ d = voteDataFor p n ep) ∨ n.maliciousVoteInject = true := by
  have notHeader (h : ProtoHeader) (same : h.marshal = d.marshal) : False := by
    have height := headerHeight_vote d started
    rw [← same, headerHeight_header] at height
    contradiction
  have data (d' : ProtoVoteData) (same : d'.marshal = d.marshal) : d = d' := by
    rw [← d.unmarshal_marshal, ← same, d'.unmarshal_marshal]
  generalize bytes : d.marshal = signed at signs
  cases signs with
  | forwarded prop ep _ _ =>
    cases header : prop.getHeader with
    | some h => exact absurd (by rw [bytes, header]; rfl) (notHeader h)
    | none =>
      rw [header] at bytes
      have empty := congrArg (fun b => (ProtoVoteData.unmarshal b).blockHash) bytes
      simp only [d.unmarshal_marshal] at empty
      exact absurd empty hash
  | proposed cert _ _ _ _ => exact (notHeader _ bytes.symm).elim
  | injected cert extra _ => exact (notHeader _ bytes.symm).elim
  | led fprop ep accepted full _ => exact Or.inl ⟨fprop,ep,rfl,accepted,full,data _ bytes.symm⟩
  | voted ep => exact Or.inr (Or.inl ⟨ep,rfl,data _ bytes.symm⟩)
  | misvoted ep injected => exact Or.inr (Or.inr injected)
  | accused _ target =>
    have empty := congrArg (fun b => (ProtoVoteData.unmarshal b).blockHash) bytes
    simp only [d.unmarshal_marshal, EvidenceData.unmarshal_marshal] at empty
    exact absurd empty hash

end Jobs

/-! ## The signatures of a run -/

theorem NodeCase.signs {p : Platform} {cfg : NodeConfig} {node node' : Node} {event : NodeEvent}
    {sends : List Outgoing} {data : Bytes} (case : NodeCase p cfg node event node' sends)
    (signs : data ∈ (sends.flatMap Outgoing.messages).flatMap SyncHSMsg.signedData ∨
      ∃ job ∈ node'.pending, job.draft = some data) : (∃ job ∈ node.pending, job.draft = some data) ∨
      ∃ index order job jobs, event = .work index order ∧ node.pending[index]? = some job ∧
        JobCase p cfg node.state order job node'.state ⟨jobs,sends,[]⟩ ∧ Effect.signs ⟨jobs,sends,[]⟩ data := by
  cases case with
  | connected | calledBack _ _ _ => exact Or.inl (signs.resolve_left List.not_mem_nil)
  | commanded cmd n' jobs case =>
    obtain ⟨job,member,draft⟩ := signs.resolve_left List.not_mem_nil
    rcases List.mem_append.mp member with old | new
    · exact Or.inl ⟨job,old,draft⟩
    · cases case with
      | pooled _ _ _ _ _ rounds =>
        rw [rounds job new] at draft
        contradiction
  | received m =>
    obtain ⟨job,member,draft⟩ := signs.resolve_left List.not_mem_nil
    rcases List.mem_append.mp member with old | new
    · exact Or.inl ⟨job,old,draft⟩
    · have network := protocol_fromNetwork new
      cases job <;> contradiction
  | worked index order job n' jobs sends found case =>
    rcases signs with sent | ⟨next,member,draft⟩
    · exact Or.inr ⟨index,order,job,jobs,rfl,found,case,Or.inl sent⟩
    · rcases of_mem_work member with old | new
      · exact Or.inl ⟨next,old,draft⟩
      · exact Or.inr ⟨index,order,job,jobs,rfl,found,case,Or.inr ⟨next,new,draft⟩⟩

section Runs

variable {c : Cluster} {p : Platform} {s t : System} {e : SystemEvent} {trace : List SystemEvent} {k : Nat}
  {data : Bytes}

theorem Moves.made_job {i : Nat} {event : NodeEvent} {sends : List Outgoing} (moves : Moves c p s e t i event sends)
    (made : t.made k data) : s.made k data ∨ k = i ∧ ∃ index order job jobs, e = .work i index order ∧
      (s.nodes i).pending[index]? = some job ∧
      JobCase p (c.config i) (s.nodes i).state order job (t.nodes i).state ⟨jobs,sends,[]⟩ ∧
      Effect.signs ⟨jobs,sends,[]⟩ data := by
  by_cases same : k = i
  · subst same
    have signs : (k,data) ∈ s.signed ∨ data ∈ (sends.flatMap Outgoing.messages).flatMap SyncHSMsg.signedData ∨
        ∃ job ∈ (t.nodes k).pending, job.draft = some data := by
      rcases made with signed | drafted
      · rw [moves.signed] at signed
        rcases List.mem_append.mp signed with old | new
        · exact Or.inl old
        · obtain ⟨m,member,inside⟩ := List.mem_flatMap.mp new
          obtain ⟨data',listed,pair⟩ := List.mem_map.mp inside
          obtain rfl := (Prod.mk.inj pair).2
          exact Or.inr (Or.inl (List.mem_flatMap.mpr ⟨m,member,listed⟩))
      · exact Or.inr (Or.inr drafted)
    rcases signs with old | signs
    · exact Or.inl (Or.inl old)
    · rcases moves.case.signs signs with drafted | ⟨index,order,job,jobs,work,found,case,signs⟩
      · exact Or.inl (Or.inr drafted)
      · exact Or.inr ⟨rfl,index,order,job,jobs,moves.works index order work,found,case,signs⟩
  · rw [System.made, moves.other k same] at made
    refine Or.inl (made.imp_left fun signed => ?_)
    rw [moves.signed] at signed
    refine (List.mem_append.mp signed).resolve_right fun new => ?_
    obtain ⟨m,_,inside⟩ := List.mem_flatMap.mp new
    obtain ⟨_,_,pair⟩ := List.mem_map.mp inside
    exact same (Prod.mk.inj pair).1.symm

theorem Moves.made {i : Nat} {event : NodeEvent} {sends : List Outgoing} (moves : Moves c p s e t i event sends)
    (made : t.made k data) : s.made k data ∨ k = i ∧ ∃ index order job, e = .work i index order ∧
      (s.nodes i).pending[index]? = some job ∧ Signs p (c.config i) (s.nodes i).state (t.nodes i).state job data := by
  rcases moves.made_job made with old | ⟨rfl,index,order,job,jobs,work,found,case,signs⟩
  · exact Or.inl old
  · rcases case.signs signs with drafted | made
    · exact Or.inl (Or.inr ⟨job,List.mem_of_getElem? found,drafted⟩)
    · exact Or.inr ⟨rfl,index,order,job,work,found,made⟩

theorem Shown.made (run : (systemMachine c p).Run (System.start c) trace s) (honest : k ∈ c.honestNodes)
    (shown : Shown p trace k data) : s.made k data := by
  refine run.history (I := fun past s => Shown p past k data → s.made k data) ?_ ?_ shown
  · rintro ⟨_,_,_,member,_⟩
    contradiction
  · intro past s e t _ before admitted moved ⟨dest,m,sig,member,signature,verifies⟩
    have made : s.made k data := by
      rcases List.mem_append.mp member with old | new
      · exact before ⟨dest,m,sig,old,signature,verifies⟩
      · obtain rfl := List.mem_singleton.mp new
        exact Or.inl (admitted.2.2 _ signature k honest verifies)
    rcases (System.step_cases moved).moves with ⟨_,_,_,rfl⟩ | ⟨i,event,sends,moves⟩
    · exact made
    · exact moves.keeps made

theorem HasSigned.made (run : (systemMachine c p).Run (System.start c) trace s) (honest : k ∈ c.honestNodes)
    (signed : HasSigned p trace s k data) : s.made k data :=
  signed.elim id fun shown => shown.made run honest

theorem HasSigned.run {later : List SystemEvent} (rest : (systemMachine c p).Run s later t)
    (signed : HasSigned p trace s k data) : HasSigned p (trace ++ later) t k data := by
  refine rest.history (I := fun past t => HasSigned p (trace ++ past) t k data) ?_ ?_
  · rwa [List.append_nil]
  · intro past s e t _ signed _ moved
    rw [← List.append_assoc]
    exact signed.step (System.step_cases moved)

end Runs

end ReputationSMR

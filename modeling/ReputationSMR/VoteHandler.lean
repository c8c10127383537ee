import ReputationSMR.Vote

/-! What one iteration of `voteHandler` can do. The handler acts on the pool of the
receiver's view, so the cases are stated in terms of pools and of the latch that a
certificate sets. -/
namespace ReputationSMR

open Wire FiniteMap

def SyncHS.pool (n : SyncHS) (view : Nat) : Map Nat ProtoVote := row n.receivedVotes view

def SyncHS.certified (n : SyncHS) (view : Nat) : Prop := n.isCertified.lookup view = some true

instance (n : SyncHS) (view : Nat) : Decidable (n.certified view) :=
  inferInstanceAs (Decidable (_ = _))

def Job.storedCert : Job → Option (Nat × BlockCertificate)
  | .addCert bc height => some (height,bc)
  | _ => none

def Job.heldVote : Job → Option ProtoVote
  | .voteChannel v => some v
  | _ => none

section Step

variable {p : Platform} {cfg : NodeConfig} {n n' : SyncHS} {v : ProtoVote} {order : List Nat}
  {effect : Effect}

theorem openPool_eq (n : SyncHS) (height : Nat) : n.openPool height =
    { n with
      receivedVotes := (n.openPool height).receivedVotes
      isCertified := (n.openPool height).isCertified } := by
  rw [SyncHS.openPool]
  split <;> rfl

theorem openPool_unread {β : Type} (f : SyncHS → β) (n : SyncHS) (height : Nat)
    (unread : ∀ votes latches, f { n with receivedVotes := votes, isCertified := latches } = f n) :
    f (n.openPool height) = f n := by
  rw [openPool_eq]
  exact unread _ _

@[simp] theorem openPool_pool (n : SyncHS) (height view : Nat) :
    (n.openPool height).pool view = n.pool view := by
  simp only [SyncHS.openPool, SyncHS.pool]
  split
  next => rfl
  next absent =>
    rw [row_insert]
    split
    next same =>
      subst same
      simp only [Bool.not_eq_true, Option.isSome_eq_false_iff, Option.isNone_iff_eq_none] at absent
      simp [row,absent]
    next => rfl

@[simp] theorem openPool_view (n : SyncHS) (height : Nat) : (n.openPool height).view = n.view :=
  openPool_unread SyncHS.view n height fun _ _ => rfl

@[simp] theorem openPool_reputationMap (n : SyncHS) (height : Nat) :
    (n.openPool height).reputationMap = n.reputationMap :=
  openPool_unread SyncHS.reputationMap n height fun _ _ => rfl

theorem openPool_keys (n : SyncHS) (height : Nat) :
    (n.openPool height).receivedVotes.keys = insert height n.receivedVotes.keys := by
  simp only [SyncHS.openPool]
  split
  next present =>
    rw [Finset.insert_eq_self.mpr]
    rwa [Finmap.mem_keys, ← Finmap.lookup_isSome]
  next => simp

/-- A vote that the handler adds to the pool of the current view. -/
structure Joins (p : Platform) (cfg : NodeConfig) (n : SyncHS) (v : ProtoVote) (d : ProtoVoteData) :
    Prop where
  data : v.data = some d
  body : v.body.isSome
  owner : d.owner = n.leader
  whole : p.copies d.blockHash
  fresh : v.getVoter ∉ n.pool n.view
  valid : v.getVoter = cfg.id ∨ isVoteValid p cfg v = some true

instance (p : Platform) (cfg : NodeConfig) (n : SyncHS) (v : ProtoVote) (d : ProtoVoteData) :
    Decidable (Joins p cfg n v d) :=
  decidable_of_iff (v.data = some d ∧ v.body.isSome ∧ d.owner = n.leader ∧ p.copies d.blockHash ∧
      v.getVoter ∉ n.pool n.view ∧ (v.getVoter = cfg.id ∨ isVoteValid p cfg v = some true))
    ⟨fun ⟨data,body,owner,whole,fresh,valid⟩ => ⟨data,body,owner,whole,fresh,valid⟩,
      fun ⟨data,body,owner,whole,fresh,valid⟩ => ⟨data,body,owner,whole,fresh,valid⟩⟩

def SyncHS.credit (n : SyncHS) (v : ProtoVote) : SyncHS :=
  { n with voteMap := put2 n.voteMap n.view v.getVoter 1 }

def SyncHS.poolWith (n : SyncHS) (v : ProtoVote) : Map Nat ProtoVote :=
  (n.pool n.view).insert v.getVoter v

def SyncHS.setPool (n : SyncHS) (votes : Map Nat ProtoVote) : SyncHS :=
  { n with receivedVotes := n.receivedVotes.insert n.view votes }

def SyncHS.certify (n : SyncHS) : SyncHS :=
  { n with isCertified := n.isCertified.insert n.view true }

/-- The certificate that the handler builds when the vote crosses the threshold. -/
def SyncHS.certWith (p : Platform) (n : SyncHS) (v : ProtoVote) (d : ProtoVoteData)
    (order : List Nat) : BlockCertificate :=
  newCert (poolVotes (n.poolWith v) order) (p.toHash d.blockHash) d.view

def SyncHS.weight (n : SyncHS) (voters : Finset Nat) : ℚ := sumAt (row n.reputationMap n.view) voters

/-- Everything an iteration can do to the state `m` in which the pool is open. -/
inductive Counted (p : Platform) (m : SyncHS) (v : ProtoVote) (d : ProtoVoteData) (order : List Nat) :
    SyncHS → Effect → Prop where
  | late : m.certified m.view → Counted p m v d order (m.credit v) .none
  | pooled : ¬m.certified m.view →
      (∀ i ∈ (m.poolWith v).keys, ((row m.reputationMap m.view).lookup i).isSome) →
      m.weight (m.poolWith v).keys ≤ m.getCertBenchMark m.view →
      Counted p m v d order ((m.credit v).setPool (m.poolWith v)) .none
  | certifies : ¬m.certified m.view →
      (∀ i ∈ (m.poolWith v).keys, ((row m.reputationMap m.view).lookup i).isSome) →
      m.getCertBenchMark m.view < m.weight (m.poolWith v).keys →
      Counted p m v d order ((m.credit v).setPool (m.poolWith v)).certify
        ⟨[.addCert (m.certWith p v d order) m.view],[],[]⟩

inductive VoteStep (p : Platform) (cfg : NodeConfig) (n : SyncHS) (v : ProtoVote) (order : List Nat) :
    SyncHS → Effect → Prop where
  | foreign (d : ProtoVoteData) : v.data = some d → d.owner ≠ n.leader →
      VoteStep p cfg n v order n ⟨[.sendMalivoteEvidence v],[],[]⟩
  | dropped (d : ProtoVoteData) : v.data = some d → d.owner = n.leader →
      (v.getVoter ∈ n.pool n.view ∨ v.getVoter ≠ cfg.id ∧ isVoteValid p cfg v = some false) →
      VoteStep p cfg n v order (n.openPool n.view) .none
  | counted (d : ProtoVoteData) (n' : SyncHS) (effect : Effect) : Joins p cfg n v d →
      Counted p (n.openPool n.view) v d order n' effect → VoteStep p cfg n v order n' effect

theorem countVote_cases {m : SyncHS} {d : ProtoVoteData}
    (counted : countVote p m v d order = some (n',effect)) :
    v.body.isSome ∧ Counted p m v d order n' effect := by
  simp only [countVote, SyncHS.addVotetoMap] at counted
  cases shape : v.body with
  | none => simp [shape] at counted
  | some body =>
    refine ⟨rfl,?_⟩
    have voter : body.voter = v.getVoter := by simp [ProtoVote.getVoter,shape]
    simp only [shape, Option.map_some, voter, repSumInCert] at counted
    split at counted
    next already =>
      obtain ⟨rfl,rfl⟩ := Prod.mk.inj (Option.some.inj counted)
      exact .late already
    next opened =>
      split at counted
      next => contradiction
      next sum weighed =>
        split at weighed
        next listed =>
          obtain rfl := Option.some.inj weighed
          split at counted
          next low =>
            obtain ⟨rfl,rfl⟩ := Prod.mk.inj (Option.some.inj counted)
            exact .pooled opened listed low
          next high =>
            obtain ⟨rfl,rfl⟩ := Prod.mk.inj (Option.some.inj counted)
            exact .certifies opened listed (not_le.mp high)
        next => contradiction

theorem voteHandler_cases (handled : voteHandler p cfg n v order = some (n',effect)) :
    VoteStep p cfg n v order n' effect := by
  simp only [voteHandler] at handled
  split at handled
  next => contradiction
  next d found =>
    split at handled
    next foreign =>
      obtain ⟨rfl,rfl⟩ := Prod.mk.inj (Option.some.inj handled)
      exact .foreign d found foreign
    next own =>
      have owner : d.owner = n.leader := not_not.mp own
      have rows : row (n.openPool n.view).receivedVotes n.view = n.pool n.view := openPool_pool n _ _
      simp only [openPool_view, rows] at handled
      split at handled
      next => contradiction
      next copied =>
      have whole : p.copies d.blockHash := not_not.mp copied
      split at handled
      next twice =>
        obtain ⟨rfl,rfl⟩ := Prod.mk.inj (Option.some.inj handled)
        exact .dropped d found owner (Or.inl twice)
      next fresh =>
        split at handled
        next self =>
          obtain ⟨body,counted⟩ := countVote_cases handled
          exact .counted d n' effect ⟨found,body,owner,whole,fresh,Or.inl self⟩ counted
        next other =>
          split at handled
          next => contradiction
          next invalid =>
            obtain ⟨rfl,rfl⟩ := Prod.mk.inj (Option.some.inj handled)
            exact .dropped d found owner (Or.inr ⟨other,invalid⟩)
          next valid =>
            obtain ⟨body,counted⟩ := countVote_cases handled
            exact .counted d n' effect ⟨found,body,owner,whole,fresh,Or.inr valid⟩ counted

/-- The handler touches pools, latches and the credits of voters only. -/
theorem VoteStep.unread {β : Type} (f : SyncHS → β) (step : VoteStep p cfg n v order n' effect)
    (unread : ∀ votes latches credits,
      f { n with receivedVotes := votes, isCertified := latches, voteMap := credits } = f n) : f n' = f n := by
  cases step with
  | foreign _ _ _ => rfl
  | dropped _ _ _ _ =>
    rw [openPool_eq]
    exact unread _ _ n.voteMap
  | counted _ _ _ _ counted =>
    cases counted with
    | late _ =>
      rw [SyncHS.credit, openPool_eq]
      exact unread _ _ _
    | pooled _ _ _ =>
      rw [SyncHS.setPool, SyncHS.credit, openPool_eq]
      exact unread _ _ _
    | certifies _ _ _ =>
      rw [SyncHS.certify, SyncHS.setPool, SyncHS.credit, openPool_eq]
      exact unread _ _ _

theorem voteHandler_total {d : ProtoVoteData} (data : v.data = some d) (body : v.body.isSome)
    (whole : p.copies d.blockHash) (known : v.getVoter ∈ cfg.nodeKeyMap)
    (listed : ∀ i ∈ (n.poolWith v).keys, ((row n.reputationMap n.view).lookup i).isSome) :
    (voteHandler p cfg n v order).isSome := by
  obtain ⟨content,shape⟩ := Option.isSome_iff_exists.mp body
  have counts : (countVote p (n.openPool n.view) v d order).isSome := by
    have pool : row (n.openPool n.view).receivedVotes n.view = n.pool n.view := openPool_pool n _ _
    have sum : repSumInCert (row n.reputationMap n.view) ((n.pool n.view).insert v.getVoter v) =
        some (sumAt (row n.reputationMap n.view) (n.poolWith v).keys) := if_pos listed
    simp only [countVote, SyncHS.addVotetoMap, shape, Option.map_some, openPool_view,
      openPool_reputationMap, pool, sum]
    split
    next => rfl
    next => split <;> rfl
  have key : getPubKeyFromID cfg v.getVoter = some v.getVoter := if_pos known
  simp only [voteHandler, data, isVoteValid, key, Option.map_some, whole, not_true_eq_false, if_false]
  split
  next => rfl
  next =>
    split
    next => rfl
    next =>
      split
      next => exact counts
      next =>
        split
        next => contradiction
        next => rfl
        next => exact counts

end Step

end ReputationSMR

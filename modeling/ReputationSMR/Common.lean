import ReputationSMR.ChainSafety

/-! What the nodes of a cluster have in common at the start of a view, and why a proposal
that the leader builds on it passes the checks of every node. -/
namespace ReputationSMR

open Wire FiniteMap

/-- The laws of the packages outside the repository: `ToHash` copies a hash, a signature
verifies for its signer and data, the key library returns no error on a signature that it
made, and the hash of a header is neither the empty hash nor the parent hash that the
header carries. -/
structure Platform.Laws (p : Platform) : Prop where
  copies : ∀ h : Hash, p.toHash h.bytes = h
  signed : ∀ i data, p.verify i data (p.sign i data) = some true
  noError : ∀ i data k other, p.verify i data (p.sign k other) ≠ none
  nonempty : ∀ h : ProtoHeader, p.doHash h.marshal ≠ emptyHash
  fresh : ∀ h : ProtoHeader, (p.doHash h.marshal).bytes ≠ h.parentHash

theorem transparent_laws : transparent.Laws where
  copies := copyHash_bytes
  signed i data := congrArg some (decide_eq_true rfl)
  noError _ _ _ _ := nofun
  nonempty h same := by
    have first := congrArg (fun hash => hash.bytes.head?) same
    simp only [transparent, emptyHash, List.head?_cons] at first
    split at first <;> exact absurd first (by decide)
  fresh h same := by
    have first := congrArg List.head? same
    simp only [transparent, ProtoHeader.parentHash_marshal, List.head?_cons] at first
    split at first
    next one =>
      rw [one] at first
      exact absurd first (by decide)
    next other => exact other first.symm

/-! ## The common part of the state -/

structure Common where
  view : Nat
  leader : Nat
  bc : BlockChain
  reputationMap : Map Nat (Map Nat ℚ)
  proposalMap : BehaviourMap
  voteMap : BehaviourMap
  voteMaliMap : BehaviourMap
  equiproposalMap : BehaviourMap
  withproposalMap : BehaviourMap
  maliproposalMap : BehaviourMap

def SyncHS.common (n : SyncHS) : Common :=
  ⟨n.view,n.leader,n.bc,n.reputationMap,n.proposalMap,n.voteMap,n.voteMaliMap,n.equiproposalMap,
    n.withproposalMap,n.maliproposalMap⟩

namespace Common

def counts (C : Common) (nodeID : Nat) : Counters :=
  ⟨countViews C.proposalMap nodeID,countViews C.voteMap nodeID,countViews C.maliproposalMap nodeID,
    countViews C.equiproposalMap nodeID,countViews C.withproposalMap nodeID,
    countViews C.voteMaliMap nodeID⟩

def score (p : Platform) (C : Common) (nodeID : Nat) : ℚ := (C.counts nodeID).nodeScore p

/-- The reputations of the next view, for a cluster of `size` nodes. -/
def newRow (p : Platform) (size : Nat) (C : Common) : Map Nat ℚ :=
  fill (C.score p) (List.range size) (row C.reputationMap (C.view + 1))

/-- The common state after the callbacks of a view. -/
def advance (p : Platform) (size : Nat) (C : Common) : Common :=
  { C with
    view := C.view + 1
    leader := (C.leader + 1) % size
    reputationMap := C.reputationMap.insert (C.view + 1) (C.newRow p size) }

theorem lookup_newRow (p : Platform) (size : Nat) (C : Common) (i : Nat) :
    (C.newRow p size).lookup i =
      if i < size then some (C.score p i) else (row C.reputationMap (C.view + 1)).lookup i := by
  rw [newRow, lookup_fill]
  simp only [List.mem_range]

end Common

/-! ## The settings of a cluster -/

structure Setting where
  size : Nat
  blockSize : Nat
  startEvidence : Bool
  timerMode : TimerMode

namespace Setting

def config (z : Setting) : Nat → NodeConfig :=
  NodeConfig.complete z.size z.blockSize z.startEvidence z.timerMode

variable (z : Setting) (i : Nat)

@[simp] theorem config_id : (z.config i).id = i := rfl

@[simp] theorem config_timerMode : (z.config i).timerMode = z.timerMode := rfl

variable {z i}

theorem config_card (inside : i < z.size) : (z.config i).pMap.card = z.size - 1 := by
  simp [config,NodeConfig.complete,Finset.card_erase_of_mem,inside]

theorem mem_pMap {j : Nat} : j ∈ (z.config i).pMap ↔ j ≠ i ∧ j < z.size := by
  simp [config,NodeConfig.complete]

theorem key {j : Nat} (inside : j < z.size) : getPubKeyFromID (z.config i) j = some j := by
  simp [getPubKeyFromID,config,NodeConfig.complete,inside]

end Setting

theorem nextView_common {p : Platform} {z : Setting} {i : Nat} (inside : i < z.size) (n : SyncHS)
    (counters : Counters) :
    (n.nextView p (z.config i) counters).common = n.common.advance p z.size := by
  have card : (z.config i).pMap.card + 1 = z.size := by rw [Setting.config_card inside]; omega
  have rows : newRow p (z.config i) n = n.common.newRow p z.size := by
    rw [newRow, card]
    rfl
  simp only [SyncHS.common, SyncHS.nextView, Common.advance, rows]
  rfl

/-! ## Certificates of the head -/

/-- A certificate that the nodes may hold for the head of the common chain. -/
inductive HeadCert (p : Platform) (size : Nat) (C : Common) : BlockCertificate → Prop where
  | genesis : C.bc.head = 0 → HeadCert p size C genesisCert
  | empty (b : ExtBlock) (view : Nat) : C.bc.head ≠ 0 → C.bc.blocksByHeight.lookup C.bc.head = some b →
      b.getExtra.length = 1 → HeadCert p size C (emptyCertificate (b.getBlockHash p) view)
  | voted (b : ExtBlock) (votes : List ProtoVote) (view : Nat) : C.bc.head ≠ 0 →
      C.bc.blocksByHeight.lookup C.bc.head = some b → (votes.map ProtoVote.getVoter).Nodup →
      (∀ v ∈ votes, v.getVoter < size) → (∀ v ∈ votes, ∃ k data, v.getSignature = p.sign k data) →
      (∀ v ∈ votes, v.getVoter ∈ (row C.reputationMap (C.view - 1)).keys) →
      total (row C.reputationMap (C.view - 1)) * (1 / 2) <
        sumAt (row C.reputationMap (C.view - 1)) (votes.map ProtoVote.getVoter).toFinset →
      HeadCert p size C (newCert votes (b.getBlockHash p) view)

/-- The certificate as a receiver of a proposal decodes it. -/
def decodedCert (cert : BlockCertificate) : BlockCertificate :=
  { BlockCertificate.new with
    part := ⟨cert.data.marshal,cert.part.ids,cert.part.sigs,
      (cert.part.ids.zip cert.part.sigs).foldl (fun m entry => m.insert entry.1 entry.2) ∅⟩
    data := cert.data
    proto := some cert.build }

theorem fromProto_toProto (p : Platform) (cert : BlockCertificate) (paired : cert.Paired) :
    BlockCertificate.new.fromProto p (p.unmarshalCertificate cert.toProto.1.marshal) =
      some (decodedCert cert) := by
  have built : cert.toProto.1 = cert.build := by simp [BlockCertificate.toProto,paired.uncached]
  rw [built, p.unmarshalCertificate_marshal]
  simp only [BlockCertificate.fromProto, BlockCertificate.build, paired.even, lt_irrefl, if_false,
    p.unmarshalVoteData_marshal]
  rfl

section Heads

variable {p : Platform} {size : Nat} {C : Common} {cert : BlockCertificate}

theorem HeadCert.paired (head : HeadCert p size C cert) : cert.Paired := by
  cases head with
  | genesis _ => exact ⟨rfl,rfl⟩
  | empty b view _ _ _ => exact ⟨rfl,rfl⟩
  | voted b votes view _ _ _ _ _ _ _ => exact newCert_paired votes _ view

theorem HeadCert.hash (laws : p.Laws) (head : HeadCert p size C cert) :
    C.bc.hashAt p C.bc.head = some (cert.getBlockInfo p).1 := by
  cases head with
  | genesis zero =>
    rw [BlockChain.hashAt, if_pos zero]
    exact congrArg some (laws.copies emptyHash).symm
  | empty b view nonzero found _ =>
    rw [BlockChain.hashAt, if_neg nonzero, found]
    exact congrArg some (laws.copies (b.getBlockHash p)).symm
  | voted b votes view nonzero found _ _ _ _ _ =>
    rw [BlockChain.hashAt, if_neg nonzero, found, BlockCertificate.getBlockInfo, newCert_data]
    exact congrArg some (laws.copies (b.getBlockHash p)).symm

theorem HeadCert.whole (head : HeadCert p size C cert) : p.copies cert.data.blockHash := by
  cases head with
  | genesis _ => exact p.copies_hash emptyHash
  | empty b view _ _ _ => exact p.copies_hash (b.getBlockHash p)
  | voted b votes view _ _ _ _ _ _ _ =>
    rw [newCert_data]
    exact p.copies_hash (b.getBlockHash p)

end Heads

theorem certWeight_eq {p : Platform} {cfg : NodeConfig} {reputations : Map Nat ℚ} {bc : BlockCertificate}
    (ids : List Nat) (sum : ℚ)
    (signatures : ∀ id ∈ ids, ∃ sig, bc.getSignatureFromID id = some sig ∧ p.verify id bc.part.data sig ≠ none)
    (keys : ∀ id ∈ ids, id ∈ cfg.nodeKeyMap) (listed : ∀ id ∈ ids, id ∈ reputations.keys) :
    certWeight p cfg reputations bc ids sum =
      some (some (sum + (ids.map fun id => (reputations.lookup id).getD 0).sum)) := by
  induction ids generalizing sum with
  | nil => simp [certWeight]
  | cons id rest ih =>
    obtain ⟨sig,found,decodes⟩ := signatures id List.mem_cons_self
    obtain ⟨reputation,entry⟩ := (mem_keys_iff reputations id).mp (listed id List.mem_cons_self)
    have key : getPubKeyFromID cfg id = some id := by
      simp [getPubKeyFromID,keys id List.mem_cons_self]
    have tail := ih (sum + reputation) (fun k member => signatures k (List.mem_cons_of_mem id member))
      (fun k member => keys k (List.mem_cons_of_mem id member))
      (fun k member => listed k (List.mem_cons_of_mem id member))
    simp only [certWeight, found, key, if_neg decodes, entry, tail, List.map_cons, List.sum_cons, Option.getD_some,
      add_assoc]

theorem newCert_weight {p : Platform} {cfg : NodeConfig} {reputations : Map Nat ℚ} {votes : List ProtoVote}
    (distinct : (votes.map ProtoVote.getVoter).Nodup)
    (decodes : ∀ v ∈ votes, ∀ data, p.verify v.getVoter data v.getSignature ≠ none)
    (keys : ∀ v ∈ votes, v.getVoter ∈ cfg.nodeKeyMap) (listed : ∀ v ∈ votes, v.getVoter ∈ reputations.keys)
    (hash : Hash) (view : Nat) :
    certWeight p cfg reputations (decodedCert (newCert votes hash view))
        (decodedCert (newCert votes hash view)).getSigners 0 =
      some (some (sumAt reputations (votes.map ProtoVote.getVoter).toFinset)) := by
  have signers : (decodedCert (newCert votes hash view)).getSigners = votes.map ProtoVote.getVoter :=
    newCert_ids _ _ _
  have table : (newCert votes hash view).part.ids.zip (newCert votes hash view).part.sigs =
      votes.map fun v => (v.getVoter,v.getSignature) := by
    rw [newCert_ids, newCert_sigs, List.zip_map']
  rw [signers, certWeight_eq, zero_add, sumAt, List.sum_toFinset _ distinct]
  · intro id member
    obtain ⟨v,vote,rfl⟩ := List.mem_map.mp member
    have stored : ((decodedCert (newCert votes hash view)).getSignatureFromID v.getVoter).isSome := by
      refine (zip_lookup _ ∅ _).mpr (Or.inl ⟨v.getSignature,?_⟩)
      rw [table]
      exact List.mem_map.mpr ⟨v,vote,rfl⟩
    obtain ⟨sig,found⟩ := Option.isSome_iff_exists.mp stored
    refine ⟨sig,found,?_⟩
    have entry := (mem_of_zip_lookup found).resolve_right (by simp)
    rw [table] at entry
    obtain ⟨w,vote',same⟩ := List.mem_map.mp entry
    obtain ⟨voter,rfl⟩ := Prod.mk.inj same
    rw [← voter]
    exact decodes w vote' _
  · intro id member
    obtain ⟨v,vote,rfl⟩ := List.mem_map.mp member
    exact keys v vote
  · intro id member
    obtain ⟨v,vote,rfl⟩ := List.mem_map.mp member
    exact listed v vote

theorem HeadCert.valid {p : Platform} (laws : p.Laws) {z : Setting} {C : Common} {cert : BlockCertificate}
    {i : Nat} {n : SyncHS} (head : HeadCert p z.size C cert) (view : n.view = C.view)
    (reputations : n.reputationMap = C.reputationMap)
    (known : ∀ b, C.bc.head ≠ 0 → C.bc.blocksByHeight.lookup C.bc.head = some b →
      n.bc.blocksByHash.lookup (b.getBlockHash p) = some b) :
    isCertValid p (z.config i) n (decodedCert cert) = some true := by
  have info : (decodedCert cert).getBlockInfo p = cert.getBlockInfo p := rfl
  have whole : p.copies (decodedCert cert).data.blockHash := head.whole
  rw [isCertValid, info, if_neg (not_not.mpr whole)]
  split
  next => rfl
  next nonempty =>
    cases head with
    | genesis zero => exact absurd (laws.copies emptyHash) nonempty
    | empty b view nonzero found single =>
      have hash : ((emptyCertificate (b.getBlockHash p) view).getBlockInfo p).1 = b.getBlockHash p :=
        laws.copies _
      rw [hash, known b nonzero found]
      exact if_pos single
    | voted b votes certView nonzero found distinct inside signed listed quorum =>
      have hash : ((newCert votes (b.getBlockHash p) certView).getBlockInfo p).1 = b.getBlockHash p := by
        rw [BlockCertificate.getBlockInfo, newCert_data]
        exact laws.copies _
      rw [hash, known b nonzero found]
      dsimp only
      split
      next => rfl
      next =>
        have keys : ∀ v ∈ votes, v.getVoter ∈ (z.config i).nodeKeyMap := by
          intro v vote
          simpa [Setting.config,NodeConfig.complete] using inside v vote
        have decodes : ∀ v ∈ votes, ∀ data, p.verify v.getVoter data v.getSignature ≠ none := by
          intro v vote data
          obtain ⟨k,other,made⟩ := signed v vote
          rw [made]
          exact laws.noError _ data k other
        rw [view, reputations, newCert_weight distinct decodes keys listed]
        simp only [Option.some.injEq, decide_eq_true_eq, SyncHS.getCertBenchMark, reputations]
        exact quorum

/-! ## Good common states -/

/-- Every height up to the head has a block whose parent is the block below it. -/
def BlockChain.Chained (p : Platform) (bc : BlockChain) : Prop :=
  ∀ h, 1 ≤ h → h ≤ bc.head → ∃ b, bc.blocksByHeight.lookup h = some b ∧
    bc.hashAt p (h - 1) = some (b.getParentHash p)

theorem extend_top {p : Platform} {bc : BlockChain} {b : ExtBlock} (height : b.getHeight = bc.head + 1) :
    (bc.extend p b).blocksByHeight.lookup (bc.extend p b).head = some b := by
  refine (BlockChain.store_byHeight _ _ _ _ _).trans (if_pos ?_)
  rw [height]
  rfl

theorem BlockChain.Chained.extend {p : Platform} {bc : BlockChain} {b : ExtBlock} (chained : bc.Chained p)
    (height : b.getHeight = bc.head + 1) (parent : bc.hashAt p bc.head = some (b.getParentHash p)) :
    (bc.extend p b).Chained p := by
  intro h positive within
  have atMost : h ≤ bc.head + 1 := within
  have below : (bc.extend p b).hashAt p (h - 1) = bc.hashAt p (h - 1) :=
    hashAt_extend p bc b _ (by rw [height]; omega)
  by_cases top : h = bc.head + 1
  · refine ⟨b,?_,?_⟩
    · rw [BlockChain.extend, BlockChain.store_byHeight, height, if_pos top]
    · rw [below, top]
      exact parent
  · obtain ⟨a,found,linked⟩ := chained h positive (by omega)
    refine ⟨a,?_,below.trans linked⟩
    rw [BlockChain.extend, BlockChain.store_byHeight, height, if_neg top]
    exact found

/-- What holds of the common state when a view starts: the chain has one block for each
earlier view, the leader is the next in turn, every node has a reputation, and nothing
is recorded for this view or a later one. -/
structure Common.Good (p : Platform) (size : Nat) (C : Common) : Prop where
  head : C.bc.head + 1 = C.view
  leader : C.leader = C.bc.head % size
  chained : C.bc.Chained p
  newest : ∀ b, C.bc.head ≠ 0 → C.bc.blocksByHeight.lookup C.bc.head = some b →
    C.bc.blocksByHash.lookup (b.getBlockHash p) = some b
  listed : ∀ i, i ∈ (row C.reputationMap C.view).keys ↔ i < size
  positive : ∀ i x, (row C.reputationMap C.view).lookup i = some x → 0 < x
  noRow : ∀ v, C.view < v → C.reputationMap.lookup v = none
  noVotes : ∀ v, C.view ≤ v → C.voteMap.lookup v = none
  noProposal : ∀ v, C.view ≤ v → C.proposalMap.lookup v = none
  noWithholding : ∀ v, C.view ≤ v → C.withproposalMap.lookup v = none

namespace Common

variable {p : Platform} {size : Nat} {C : Common}

theorem Good.leader_lt (good : C.Good p size) (several : 0 < size) : C.leader < size := by
  rw [good.leader]
  exact Nat.mod_lt _ several

theorem Good.total_pos (good : C.Good p size) (several : 0 < size) : 0 < total (row C.reputationMap C.view) :=
  FiniteMap.total_pos _ ⟨0,(good.listed 0).mpr several⟩ good.positive

theorem Good.next {D : Common} {b : ExtBlock} (good : C.Good p size)
    (height : b.getHeight = C.bc.head + 1) (parent : C.bc.hashAt p C.bc.head = some (b.getParentHash p))
    (view : D.view = C.view) (leader : D.leader = C.leader) (bc : D.bc = C.bc.extend p b)
    (reputations : D.reputationMap = C.reputationMap)
    (votes : ∀ v, C.view < v → D.voteMap.lookup v = none)
    (proposals : ∀ v, C.view < v → D.proposalMap.lookup v = none)
    (withheld : ∀ v, C.view < v → D.withproposalMap.lookup v = none) : (D.advance p size).Good p size := by
  have head : (D.advance p size).bc.head = C.bc.head + 1 := congrArg BlockChain.head bc
  have entered : (D.advance p size).view = C.view + 1 := congrArg (· + 1) view
  have rows : row (D.advance p size).reputationMap (D.advance p size).view = D.newRow p size :=
    (row_insert _ _ _ _).trans (if_pos rfl)
  have empty : row D.reputationMap (D.view + 1) = ∅ := by
    rw [reputations, row, good.noRow _ (by omega)]
    rfl
  have entries (i : Nat) : (D.newRow p size).lookup i = if i < size then some (D.score p i) else none := by
    rw [lookup_newRow, empty]
    rfl
  refine ⟨?_,?_,?_,?_,?_,?_,?_,?_,?_,?_⟩
  · rw [head, entered, good.head]
  · rw [head]
    simp only [advance, leader, good.leader, Nat.mod_add_mod]
  · exact (show (D.advance p size).bc = _ from bc) ▸ good.chained.extend height parent
  · intro a _ found
    rw [show (D.advance p size).bc = _ from bc] at found ⊢
    rw [extend_top height] at found
    obtain rfl := Option.some.inj found
    rw [BlockChain.extend, BlockChain.store_byHash, if_pos rfl]
  · intro i
    rw [rows, mem_keys_iff, entries]
    split
    next inside => simp [inside]
    next outside => simp [outside]
  · intro i x found
    rw [rows, entries] at found
    split at found
    next => exact Option.some.inj found ▸ Counters.nodeScore_pos p _
    next => contradiction
  · intro v later
    rw [entered] at later
    refine (lookup_insert _ _ _ _).trans ((if_neg (by rw [view]; omega)).trans ?_)
    rw [reputations]
    exact good.noRow v (by omega)
  · exact fun v later => votes v (by omega)
  · exact fun v later => proposals v (by omega)
  · exact fun v later => withheld v (by omega)

/-! ## Empty blocks -/

/-- The empty block that every node appends to the head: it depends on the hash of the
head, not on the certificate that a node holds for it. -/
def emptyBlock (p : Platform) (C : Common) : ExtBlock :=
  ExtBlock.fromProto p ⟨some ⟨((C.bc.hashAt p C.bc.head).getD emptyHash).bytes,[],C.bc.head + 1,emptyExtra⟩,
    some ⟨[],[]⟩,emptyHash.bytes⟩

theorem createAnEmptyBlock_eq {cert : BlockCertificate}
    (certified : C.bc.hashAt p C.bc.head = some (cert.getBlockInfo p).1) :
    createAnEmptyBlock p [] cert (C.bc.head + 1) emptyExtra = C.emptyBlock p := by
  simp only [createAnEmptyBlock, emptyBlock, newHeader, certified, Option.getD_some]

theorem appendEmptyBlock_eq {n : SyncHS} {cert : BlockCertificate} (bc : n.bc = C.bc)
    (certified : C.bc.hashAt p C.bc.head = some (cert.getBlockInfo p).1) :
    n.appendEmptyBlock p cert =
      { n with
        bc := C.bc.extend p (C.emptyBlock p)
        certMap := n.certMap.insert n.view (emptyCertificate ((C.emptyBlock p).getBlockHash p) n.view) } := by
  simp only [SyncHS.appendEmptyBlock, SyncHS.appendBlock, SyncHS.addCert, bc, createAnEmptyBlock_eq certified]
  rfl

theorem emptyBlock_height : (C.emptyBlock p).getHeight = C.bc.head + 1 := rfl

theorem emptyBlock_extra : (C.emptyBlock p).getExtra.length = 1 := rfl

theorem emptyBlock_parent (laws : p.Laws) {h : Hash} (known : C.bc.hashAt p C.bc.head = some h) :
    C.bc.hashAt p C.bc.head = some ((C.emptyBlock p).getParentHash p) := by
  have copied : (C.emptyBlock p).getParentHash p = h := by
    simp only [emptyBlock, ExtBlock.getParentHash, ExtBlock.parentField, ExtBlock.fromProto_extHeader, Option.map_some,
      Option.getD_some, known, laws.copies]
  rw [copied, known]

theorem headCert_emptyBlock {D : Common} (bc : D.bc = C.bc.extend p (C.emptyBlock p)) (view : Nat) :
    HeadCert p size (D.advance p size) (emptyCertificate ((C.emptyBlock p).getBlockHash p) view) := by
  have head : (D.advance p size).bc.head = C.bc.head + 1 := congrArg BlockChain.head bc
  refine .empty (C.emptyBlock p) view (by omega) ?_ emptyBlock_extra
  rw [show (D.advance p size).bc = _ from bc, extend_top emptyBlock_height]

end Common

/-! ## The first view -/

def Common.initial (z : Setting) : Common :=
  ⟨1,0,.newChain,(∅ : Map Nat (Map Nat ℚ)).insert 1 (fill (fun _ => initialNodescore) (List.range z.size) ∅),
    ∅,∅,∅,∅,∅,∅⟩

theorem initial_common {z : Setting} {i : Nat} (inside : i < z.size) :
    (clientConnects (z.config i) .init).common = Common.initial z := by
  have card : (z.config i).pMap.card + 1 = z.size := by rw [Setting.config_card inside]; omega
  have reputations : (clientConnects (z.config i) .init).reputationMap = (Common.initial z).reputationMap := by
    refine (initialReputationMap_eq SyncHS.init).trans ?_
    rw [card]
    rfl
  exact congrArg (fun reputations => { Common.initial z with reputationMap := reputations }) reputations

theorem initial_good (p : Platform) (z : Setting) :
    (Common.initial z).Good p z.size := by
  have rows : row (Common.initial z).reputationMap (Common.initial z).view =
      fill (fun _ => initialNodescore) (List.range z.size) ∅ := (row_insert _ _ _ _).trans (if_pos rfl)
  refine ⟨rfl,(Nat.zero_mod _).symm,fun h positive within => ?_,fun b nonzero => absurd rfl nonzero,?_,?_,?_,
    fun _ _ => rfl,fun _ _ => rfl,fun _ _ => rfl⟩
  · have none : h ≤ 0 := within
    omega
  · intro i
    rw [rows, mem_keys_iff, lookup_fill]
    simp
  · intro i x found
    rw [rows, lookup_fill] at found
    split at found
    next => exact Option.some.inj found ▸ initialNodescore_pos
    next => contradiction
  · intro v later
    exact (lookup_insert _ _ _ _).trans (if_neg (Nat.ne_of_gt later))

end ReputationSMR

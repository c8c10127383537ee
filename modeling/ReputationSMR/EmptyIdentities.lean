import Mathlib.Dynamics.PeriodicPts.Defs
import ReputationSMR.JobCases

/-! The identity of an empty block. The message that `createAnEmptyBlock` builds carries the empty
hash, so `GetBlockHash` falls through to `ToHash` of the header bytes, which copies and does not
hash: the two bytes that introduce the parent hash, then its first thirty bytes. Height and extra
data lie behind them and are cut off. -/
namespace ReputationSMR

open Wire FiniteMap

/-! ## Iterating a function that is absorbed by a point -/

section Absorbed

variable {α : Type} {f : α → α} {fixed : α} {bound : Nat}

theorem iterate_eq_of_recurs (stable : f fixed = fixed) (absorbed : ∀ y, f^[bound] y = fixed) {x : α} {i j : Nat}
    (later : i < j) (same : f^[i] x = f^[j] x) : f^[i] x = fixed := by
  have periodic : Function.IsPeriodicPt f (j - i) (f^[i] x) := by
    rw [Function.IsPeriodicPt, Function.IsFixedPt, ← Function.iterate_add_apply, Nat.sub_add_cancel later.le, same]
  have long : (j - i) * bound = (j - i - 1) * bound + bound := by
    rw [← Nat.succ_mul]
    congr 1
    omega
  calc f^[i] x = f^[(j - i) * bound] (f^[i] x) := (periodic.mul_const bound).eq.symm
    _ = f^[(j - i - 1) * bound] (f^[bound] (f^[i] x)) := by rw [long, Function.iterate_add_apply]
    _ = fixed := by rw [absorbed, Function.iterate_fixed stable]

theorem iterates_distinct_iff (stable : f fixed = fixed) (absorbed : ∀ y, f^[bound] y = fixed) (x : α) (a m : Nat) :
    (∀ i j, a ≤ i → i < j → j ≤ m → f^[i] x ≠ f^[j] x) ↔ m ≤ a ∨ f^[m - 1] x ≠ fixed := by
  constructor
  · intro distinct
    by_contra neither
    simp only [not_or, not_le, not_not] at neither
    obtain ⟨several,reached⟩ := neither
    apply distinct (m - 1) m (by omega) (by omega) le_rfl
    rw [show m = m - 1 + 1 by omega, Nat.add_sub_cancel, Function.iterate_succ_apply', reached, stable]
  · rintro (none | unreached) i j within earlier last same
    · omega
    · have here := iterate_eq_of_recurs stable absorbed earlier same
      apply unreached
      rw [show m - 1 = (m - 1 - i) + i by omega, Function.iterate_add_apply, here, Function.iterate_fixed stable]

end Absorbed

/-! ## The hash of an empty block -/

/-- Tag and length of the parent hash in the encoding of a header. -/
def parentPrefix : Bytes := [10,32]

/-- The hash of an empty block whose parent has the given hash. -/
def emptyBlockHash (parent : Hash) : Hash :=
  ⟨parentPrefix ++ parent.bytes.take 30,by simp [parentPrefix, parent.size]⟩

@[simp] theorem emptyBlockHash_bytes (parent : Hash) :
    (emptyBlockHash parent).bytes = parentPrefix ++ parent.bytes.take 30 := rfl

/-- The bytes of the introduction over and over. -/
def stationaryHash : Hash := ⟨(List.replicate 16 parentPrefix).flatten,by simp [parentPrefix]⟩

theorem encode_parent (parent : Hash) (rest : List Field) :
    encode (bytesField 1 parent.bytes ++ rest) = parentPrefix ++ parent.bytes ++ encode rest := by
  have nonempty : parent.bytes ≠ [] := by
    intro empty
    have size := parent.size
    simp [empty] at size
  have tag : varint 10 = [10] := by decide
  have length : varint 32 = [32] := by decide
  rw [bytesField, if_neg nonempty]
  simp [encode, Field.encode, Value.wireType, Value.payload, parent.size, parentPrefix, tag, length]

section Hashes

variable {p : Platform}

theorem getBlockHash_createAnEmptyBlock (copies : p.toHash = copyHash) (cmds : List Bytes) (cert : BlockCertificate)
    (height : Nat) (extra : Bytes) :
    (createAnEmptyBlock p cmds cert height extra).getBlockHash p = emptyBlockHash (cert.getBlockInfo p).1 := by
  have missed : p.toHash emptyHash.bytes = emptyHash := by rw [copies, copyHash_bytes]
  have size := (cert.getBlockInfo p).1.size
  simp only [createAnEmptyBlock, ExtBlock.getBlockHash, ExtBlock.fromProto, missed, if_true, marshalHeader,
    Option.map_some, Option.getD_some, newHeader, ProtoHeader.marshal, List.append_assoc, encode_parent, copies]
  simp [copyHash, emptyBlockHash, parentPrefix, List.take_append, size]

theorem getBlockInfo_emptyCertificate (copies : p.toHash = copyHash) (hash : Hash) (view : Nat) :
    (emptyCertificate hash view).getBlockInfo p = (hash,view) := by
  simp only [emptyCertificate, BlockCertificate.getBlockInfo, BlockCertificate.setBlockInfo, copies, copyHash_bytes]

theorem Hash.ext_bytes {h h' : Hash} (same : h.bytes = h'.bytes) : h = h' := by
  cases h
  cases h'
  simpa using same

theorem emptyBlockHash_eq_iff (h h' : Hash) :
    emptyBlockHash h = emptyBlockHash h' ↔ h.bytes.take 30 = h'.bytes.take 30 := by
  constructor
  · intro same
    exact List.append_cancel_left (congrArg Hash.bytes same)
  · intro same
    apply Hash.ext_bytes
    rw [emptyBlockHash_bytes, emptyBlockHash_bytes, same]

theorem emptyBlockHash_stationary : emptyBlockHash stationaryHash = stationaryHash := by
  apply Hash.ext_bytes
  decide

/-- Every round shifts two more bytes of the first parent out of the hash. -/
theorem emptyBlockHash_iterate (h : Hash) (rounds : Nat) : (emptyBlockHash^[rounds] h).bytes =
    stationaryHash.bytes.take (2 * rounds) ++ h.bytes.take (32 - 2 * rounds) := by
  induction rounds with
  | zero =>
    have size := h.size
    simp [← size]
  | succ rounds ih =>
    have unfolded : stationaryHash.bytes.take (2 * rounds + 2) =
        parentPrefix ++ stationaryHash.bytes.take (min (2 * rounds) 30) := by
      conv_lhs => rw [← emptyBlockHash_stationary, emptyBlockHash_bytes, List.take_append]
      simp [parentPrefix, List.take_take]
    have shifted : min (30 - min (2 * rounds) 32) (32 - 2 * rounds) = 32 - 2 * (rounds + 1) := by omega
    rw [Function.iterate_succ_apply', emptyBlockHash_bytes, ih, List.take_append, List.take_take, List.take_take,
      List.length_take, stationaryHash.size, shifted, min_comm, Nat.mul_succ, unfolded, List.append_assoc]

theorem emptyBlockHash_absorbed (h : Hash) : emptyBlockHash^[16] h = stationaryHash := by
  apply Hash.ext_bytes
  rw [emptyBlockHash_iterate, List.take_of_length_le stationaryHash.size.le]
  simp

theorem emptyBlockHash_iterate_eq_stationary (h : Hash) (rounds : Nat) :
    emptyBlockHash^[rounds] h = stationaryHash ↔
      h.bytes.take (32 - 2 * rounds) = stationaryHash.bytes.take (32 - 2 * rounds) := by
  have aligned : stationaryHash.bytes =
      stationaryHash.bytes.take (2 * rounds) ++ stationaryHash.bytes.take (32 - 2 * rounds) := by
    rw [← emptyBlockHash_iterate, Function.iterate_fixed emptyBlockHash_stationary]
  constructor
  · intro reached
    have bytes := (emptyBlockHash_iterate h rounds).symm.trans ((congrArg Hash.bytes reached).trans aligned)
    exact List.append_cancel_left bytes
  · intro leading
    apply Hash.ext_bytes
    rw [emptyBlockHash_iterate, leading, ← aligned]

end Hashes

/-! ## Runs of empty rounds -/

/-- A round is empty when its leader withholds the proposal, or is convicted of equivocation. -/
inductive EmptyRound where
  | withheld
  | equivocated (e : EquivocationEvidence)

def emptyRounds (p : Platform) (cfg : NodeConfig) : Guarded.Machine SyncHS EmptyRound where
  enabled n
    | .withheld => cfg.timerMode = .withhold ∧ n.leader % 2 ≠ 0
    | .equivocated e => at2 n.equiproposalMap n.view n.leader ≠ some 1 ∧ isEqpEvidenceValid p cfg n e = some true
  step n round :=
    let appended := match round with
      | .withheld => startRound p cfg n
      | .equivocated e => equivocationEvidenceHandler p cfg n e
    appended.bind fun after => (callback p cfg after.1).map Prod.fst

instance (p : Platform) (cfg : NodeConfig) (n : SyncHS) (round : EmptyRound) :
    Decidable ((emptyRounds p cfg).enabled n round) := by
  cases round <;> simp only [emptyRounds] <;> infer_instance

section Rounds

variable {p : Platform} {cfg : NodeConfig} {n n' : SyncHS} {cert : BlockCertificate} {round : EmptyRound}

/-- What an empty round leaves: one more block, certified for the view, in the next view. -/
structure AppendsEmpty (p : Platform) (n n' : SyncHS) (b : ExtBlock) (view : Nat) : Prop where
  view : n'.view = view
  bc : n'.bc = { n.bc with head := n.bc.head + 1 }.store p (n.bc.head + 1) b
  certMap : n'.certMap = n.certMap.insert n.view (emptyCertificate (b.getBlockHash p) n.view)

theorem AppendsEmpty.covered {b : ExtBlock} {view : Nat} (grown : AppendsEmpty p n n' b view) :
    n'.certMap.lookup n.view = some (emptyCertificate (b.getBlockHash p) n.view) := by
  rw [grown.certMap]
  exact (lookup_insert _ _ _ _).trans (if_pos rfl)

theorem callback_advances {effect : Effect} (certified : n.certMap.lookup n.view = some cert)
    (ended : callback p cfg n = some (n',effect)) :
    n'.view = n.view + 1 ∧ n'.bc = n.bc ∧ n'.certMap = n.certMap := by
  cases callback_cases ended with
  | kept _ stays =>
    have covered : n.advances := Or.inr (Or.inr (by simp [certified]))
    contradiction
  | advanced _ _ _ _ => exact ⟨rfl,rfl,rfl⟩

theorem emptyRounds_step (certified : n.certMap.lookup n.bc.head = some cert)
    (admitted : (emptyRounds p cfg).enabled n round) (moved : (emptyRounds p cfg).step n round = some n') :
    AppendsEmpty p n n' (createAnEmptyBlock p [] cert (n.bc.head + 1) emptyExtra) (n.view + 1) := by
  obtain ⟨⟨m,jobs⟩,appended,ended⟩ := Option.bind_eq_some_iff.mp moved
  obtain ⟨⟨_,effect⟩,called,rfl⟩ := Option.map_eq_some_iff.mp ended
  have grown : AppendsEmpty p n m (createAnEmptyBlock p [] cert (n.bc.head + 1) emptyExtra) n.view := by
    cases round with
    | withheld =>
      simp only [startRound, admitted.1, if_pos admitted.2, handleWithholdingProposal,
        SyncHS.getCertForBlockIndex, certified, Option.some.injEq, Prod.mk.injEq] at appended
      obtain ⟨rfl,_⟩ := appended
      exact ⟨rfl,rfl,rfl⟩
    | equivocated e =>
      simp only [equivocationEvidenceHandler, if_neg admitted.1, admitted.2, SyncHS.getCertForBlockIndex,
        certified, Option.some.injEq, Prod.mk.injEq] at appended
      obtain ⟨rfl,_⟩ := appended
      exact ⟨rfl,rfl,rfl⟩
  have covered := grown.covered
  rw [← grown.view] at covered
  obtain ⟨next,chain,certs⟩ := callback_advances covered called
  exact ⟨next.trans (congrArg (· + 1) grown.view),chain.trans grown.bc,certs.trans grown.certMap⟩

/-- The first of the heights from the head on at which there is a block before the rounds, or with the
first of them: there is no genesis block. -/
def SyncHS.firstHeight (n : SyncHS) : Nat := if (n.bc.blocksByHeight.lookup n.bc.head).isSome then 0 else 1

/-- After some empty rounds the chain has grown by as many blocks, whose hashes are the iterates of
the hash that the certificate of the first head names. -/
structure EmptyChain (p : Platform) (n : SyncHS) (h : Hash) (rounds : Nat) (n' : SyncHS) : Prop where
  head : n'.bc.head = n.bc.head + rounds
  view : n'.view = n'.bc.head + 1
  certified : ∃ cert, n'.certMap.lookup n'.bc.head = some cert ∧ (cert.getBlockInfo p).1 = emptyBlockHash^[rounds] h
  first : n'.bc.blocksByHeight.lookup n.bc.head = n.bc.blocksByHeight.lookup n.bc.head
  blocks : ∀ i, n.firstHeight ≤ i → i ≤ rounds → ∃ b, n'.bc.blocksByHeight.lookup (n.bc.head + i) = some b ∧
    b.getBlockHash p = emptyBlockHash^[i] h

theorem EmptyChain.step {m m' : SyncHS} {h : Hash} {rounds : Nat} {round : EmptyRound} (copies : p.toHash = copyHash)
    (chain : EmptyChain p n h rounds m) (admitted : (emptyRounds p cfg).enabled m round)
    (moved : (emptyRounds p cfg).step m round = some m') : EmptyChain p n h (rounds + 1) m' := by
  obtain ⟨parent,found,named⟩ := chain.certified
  have grown := emptyRounds_step found admitted moved
  have bc := grown.bc
  have hash : (createAnEmptyBlock p [] parent (m.bc.head + 1) emptyExtra).getBlockHash p =
      emptyBlockHash^[rounds + 1] h := by
    rw [getBlockHash_createAnEmptyBlock copies, named, Function.iterate_succ_apply']
  have head : m'.bc.head = m.bc.head + 1 := congrArg BlockChain.head bc
  constructor
  · rw [head, chain.head, Nat.add_assoc]
  · rw [head, grown.view, chain.view]
  · have covered := grown.covered
    rw [hash, chain.view, ← head] at covered
    refine ⟨_,covered,?_⟩
    rw [getBlockInfo_emptyCertificate copies]
  · rw [bc, BlockChain.store_byHeight, if_neg (by rw [chain.head]; omega)]
    exact chain.first
  · intro i above within
    have lookup := BlockChain.store_byHeight p { m.bc with head := m.bc.head + 1 } (m.bc.head + 1)
      (n.bc.head + i) (createAnEmptyBlock p [] parent (m.bc.head + 1) emptyExtra)
    rw [← bc] at lookup
    by_cases last : i = rounds + 1
    · subst last
      rw [chain.head, if_pos (by omega), ← chain.head] at lookup
      exact ⟨_,lookup,hash⟩
    · rw [chain.head, if_neg (by omega)] at lookup
      rw [lookup]
      exact chain.blocks i above (by omega)

theorem emptyRounds_run (copies : p.toHash = copyHash) (view : n.view = n.bc.head + 1)
    (certified : n.certMap.lookup n.bc.head = some cert)
    (names : ∀ b ∈ n.bc.blocksByHeight.lookup n.bc.head, b.getBlockHash p = (cert.getBlockInfo p).1)
    {rounds : List EmptyRound} (run : (emptyRounds p cfg).Run n rounds n') :
    EmptyChain p n (cert.getBlockInfo p).1 rounds.length n' := by
  apply run.history (I := fun rounds n' => EmptyChain p n (cert.getBlockInfo p).1 rounds.length n')
  · refine ⟨rfl,view,⟨cert,certified,rfl⟩,rfl,?_⟩
    intro i above none
    obtain rfl := Nat.le_zero.mp none
    rw [SyncHS.firstHeight] at above
    split at above
    next stored =>
      obtain ⟨b,found⟩ := Option.isSome_iff_exists.mp stored
      exact ⟨b,found,names b found⟩
    next => contradiction
  · intro past m round m' _ chain admitted moved
    rw [List.length_append, List.length_singleton]
    exact chain.step copies admitted moved

theorem EmptyChain.distinct_iff {h : Hash} {rounds : Nat} (chain : EmptyChain p n h rounds n') :
    (∀ i j b b', i < j → j ≤ rounds → n'.bc.blocksByHeight.lookup (n.bc.head + i) = some b →
      n'.bc.blocksByHeight.lookup (n.bc.head + j) = some b' → b.getBlockHash p ≠ b'.getBlockHash p) ↔
    ∀ i j, n.firstHeight ≤ i → i < j → j ≤ rounds → emptyBlockHash^[i] h ≠ emptyBlockHash^[j] h := by
  constructor
  · intro apart i j above earlier last
    obtain ⟨b,here,hash⟩ := chain.blocks i above (earlier.le.trans last)
    obtain ⟨b',there,hash'⟩ := chain.blocks j (above.trans earlier.le) last
    rw [← hash, ← hash']
    exact apart i j b b' earlier last here there
  · intro apart i j b b' earlier last here there
    have above : n.firstHeight ≤ i := by
      rw [SyncHS.firstHeight]
      split
      next => exact Nat.zero_le i
      next empty =>
        refine Nat.one_le_iff_ne_zero.mpr ?_
        rintro rfl
        rw [Nat.add_zero, chain.first] at here
        exact empty (by rw [here]; rfl)
    obtain ⟨_,found,hash⟩ := chain.blocks i above (earlier.le.trans last)
    obtain ⟨_,found',hash'⟩ := chain.blocks j (above.trans earlier.le) last
    obtain rfl := Option.some.inj (here.symm.trans found)
    obtain rfl := Option.some.inj (there.symm.trans found')
    rw [hash, hash']
    exact apart i j above earlier last

/-- Two empty blocks have the same hash exactly when the hashes of their parents agree in the first
thirty bytes, whatever their heights are. Along a run of empty rounds the hashes of the head and of the
blocks on top of it are distinct exactly as long as the head still shows in the last hash but one. -/
theorem emptyBlock_hashes_distinct_iff (copies : p.toHash = copyHash) :
    (∀ (cert cert' : BlockCertificate) (height height' : Nat),
      (createAnEmptyBlock p [] cert height emptyExtra).getBlockHash p ≠
          (createAnEmptyBlock p [] cert' height' emptyExtra).getBlockHash p ↔
        (cert.getBlockInfo p).1.bytes.take 30 ≠ (cert'.getBlockInfo p).1.bytes.take 30) ∧
    ∀ (cfg : NodeConfig) (n n' : SyncHS) (cert : BlockCertificate) (rounds : List EmptyRound),
      n.view = n.bc.head + 1 → n.certMap.lookup n.bc.head = some cert →
      (∀ b ∈ n.bc.blocksByHeight.lookup n.bc.head, b.getBlockHash p = (cert.getBlockInfo p).1) →
      (emptyRounds p cfg).Run n rounds n' →
      ((∀ i j b b', i < j → j ≤ rounds.length → n'.bc.blocksByHeight.lookup (n.bc.head + i) = some b →
          n'.bc.blocksByHeight.lookup (n.bc.head + j) = some b' → b.getBlockHash p ≠ b'.getBlockHash p) ↔
        rounds.length ≤ n.firstHeight ∨ (cert.getBlockInfo p).1.bytes.take (34 - 2 * rounds.length) ≠
          stationaryHash.bytes.take (34 - 2 * rounds.length)) := by
  constructor
  · intro cert cert' height height'
    rw [getBlockHash_createAnEmptyBlock copies, getBlockHash_createAnEmptyBlock copies, ne_eq,
      emptyBlockHash_eq_iff]
  · intro cfg n n' cert rounds view certified names run
    have chain := emptyRounds_run copies view certified names run
    have distinct := iterates_distinct_iff emptyBlockHash_stationary emptyBlockHash_absorbed
      (cert.getBlockInfo p).1 n.firstHeight rounds.length
    rw [chain.distinct_iff, distinct, ne_eq, emptyBlockHash_iterate_eq_stationary]
    by_cases few : rounds.length ≤ n.firstHeight
    · simp only [few, true_or]
    · rw [show 32 - 2 * (rounds.length - 1) = 34 - 2 * rounds.length by omega]

def evidenceOfRound (round : Nat) : EquivocationEvidence :=
  let leader := round % 2
  let cfg := NodeConfig.complete 2 1 true .plain leader
  let prop := newCandidateProposal transparent cfg .init [] genesisCert (round + 1) []
  ⟨some (signEvidence transparent cfg ⟨leader,round + 1⟩),some prop,some prop⟩

def convictions (rounds : Nat) : List EmptyRound :=
  (List.range rounds).map fun round => .equivocated (evidenceOfRound round)

/-- From genesis the hashes of the first sixteen empty blocks are distinct. -/
theorem sixteen_empty_blocks :
    ∃ n', (emptyRounds transparent (.complete 2 1 true .plain 0)).Run
        (clientConnects (.complete 2 1 true .plain 0) .init) (convictions 16) n' ∧
      ∀ i j b b', i < j → j ≤ 16 → n'.bc.blocksByHeight.lookup (0 + i) = some b →
        n'.bc.blocksByHeight.lookup (0 + j) = some b' →
          b.getBlockHash transparent ≠ b'.getBlockHash transparent := by
  obtain ⟨n',run,_⟩ : ∃ n', (emptyRounds transparent (.complete 2 1 true .plain 0)).Run
      (clientConnects (.complete 2 1 true .plain 0) .init) (convictions 16) n' ∧ True := by
    apply Guarded.Machine.reaches
    decide +kernel
  refine ⟨n',run,?_⟩
  exact ((emptyBlock_hashes_distinct_iff (p := transparent) rfl).2 _ _ n' genesisCert (convictions 16) rfl rfl
    (by decide +kernel) run).mpr (Or.inr (by decide +kernel))

/-- Different headers with one hash: on one parent at two heights, and in the seventeenth round after
genesis in which a leader is convicted. -/
theorem emptyBlock_hashes_collide :
    newHeader transparent genesisCert 1 emptyExtra ≠ newHeader transparent genesisCert 2 emptyExtra ∧
    (createAnEmptyBlock transparent [] genesisCert 1 emptyExtra).getBlockHash transparent =
      (createAnEmptyBlock transparent [] genesisCert 2 emptyExtra).getBlockHash transparent ∧
    ∃ n', (emptyRounds transparent (.complete 2 1 true .plain 0)).Run
        (clientConnects (.complete 2 1 true .plain 0) .init)
        (convictions 17) n' ∧
      (n'.bc.blocksByHeight.lookup 16).map ExtBlock.extHeader ≠ (n'.bc.blocksByHeight.lookup 17).map ExtBlock.extHeader ∧
      (n'.bc.blocksByHeight.lookup 16).map (ExtBlock.getBlockHash transparent) = some stationaryHash ∧
      (n'.bc.blocksByHeight.lookup 17).map (ExtBlock.getBlockHash transparent) = some stationaryHash := by
  refine ⟨by decide +kernel,by decide +kernel,?_⟩
  exact Guarded.Machine.reaches (fun n' : SyncHS =>
      (n'.bc.blocksByHeight.lookup 16).map ExtBlock.extHeader ≠ (n'.bc.blocksByHeight.lookup 17).map ExtBlock.extHeader ∧
      (n'.bc.blocksByHeight.lookup 16).map (ExtBlock.getBlockHash transparent) = some stationaryHash ∧
      (n'.bc.blocksByHeight.lookup 17).map (ExtBlock.getBlockHash transparent) = some stationaryHash)
    (by decide +kernel)

end Rounds

end ReputationSMR

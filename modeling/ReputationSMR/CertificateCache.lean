import ReputationSMR.Machine
import ReputationSMR.Certificate

/-! The encoding of a certificate and its cache. A `BlockCertificate` keeps the message of its
last `ToProto` beside the lists it was built from, with a validity flag that `AddSignature` of
the embedded `PartialCertificate` does not clear; its own flag is a different field. The test of
the lengths makes up for that, because between two encodings the list of signers only grows. -/
namespace ReputationSMR

open Wire FiniteMap

namespace BlockCertificate

/-- The promoted method of `PartialCertificate`: the flag it clears is the inner one, which
`toProto` never reads. -/
def addSignature (bc : BlockCertificate) (signer : Nat) (signature : Bytes) : BlockCertificate :=
  { bc with
    part := { bc.part with
      ids := bc.part.ids ++ [signer]
      sigs := bc.part.sigs ++ [signature]
      voteMap := bc.part.voteMap.insert signer signature } }

theorem addVote_eq (bc : BlockCertificate) (v : ProtoVote) :
    bc.addVote v = { bc.addSignature v.getVoter v.getSignature with valid := some false } := rfl

def getNumSigners (bc : BlockCertificate) : Nat := bc.part.ids.length

end BlockCertificate

/-! ## Sequences of operations -/

inductive CertOp where
  | init
  | setBlockInfo (hash : Hash) (view : Nat)
  | addVote (v : ProtoVote)
  | addSignature (signer : Nat) (signature : Bytes)
  | fromProto (data : Certificate)
  | toProto

/-- A certificate, and whether `voteMap` has been made: a write to the nil map panics. -/
structure CertState where
  cert : BlockCertificate
  made : Bool

namespace CertState

/-- `Init` is called once and before the first signer is listed. -/
def enabled (s : CertState) : CertOp → Prop
  | .init => s.made = false
  | .setBlockInfo _ _ => True
  | .addVote _ => s.made = true
  | .addSignature _ _ => s.made = true
  | .fromProto data => s.made = true ∧ data.ids.length = data.signatures.length
  | .toProto => True

instance (s : CertState) (op : CertOp) : Decidable (s.enabled op) := by
  cases op <;> simp only [enabled] <;> infer_instance

def step (p : Platform) (s : CertState) : CertOp → Option CertState
  | .init => some ⟨s.cert.init,true⟩
  | .setBlockInfo hash view => some ⟨s.cert.setBlockInfo hash view,s.made⟩
  | .addVote v => if s.made then some ⟨s.cert.addVote v,s.made⟩ else none
  | .addSignature signer signature =>
    if s.made then some ⟨s.cert.addSignature signer signature,s.made⟩ else none
  -- the method calls `Init` itself
  | .fromProto data => (s.cert.fromProto p data).map fun cert => ⟨cert,true⟩
  | .toProto => some ⟨s.cert.toProto.2,s.made⟩

end CertState

def certMachine (p : Platform) : Guarded.Machine CertState CertOp := ⟨CertState.enabled,CertState.step p⟩

instance (p : Platform) (s : CertState) (op : CertOp) : Decidable ((certMachine p).enabled s op) :=
  inferInstanceAs (Decidable (s.enabled op))

/-- `&BlockCertificate{}`, or a literal such as `GenesisCert` that sets the data. -/
def CertState.start (data : ProtoVoteData) : CertState := ⟨{ BlockCertificate.new with data := data },false⟩

/-! ## What a certificate stands for -/

/-- A block, and the signatures in the order in which they were added. -/
structure CertContents where
  blockHash : Bytes
  view : Nat
  signed : List (Nat × Bytes)
  deriving DecidableEq

namespace CertContents

def ids (a : CertContents) : List Nat := a.signed.map Prod.fst

def signatures (a : CertContents) : List Bytes := a.signed.map Prod.snd

/-- The last signature of every signer. -/
def table (a : CertContents) : Map Nat Bytes := a.signed.foldl (fun m entry => m.insert entry.1 entry.2) ∅

def apply (p : Platform) (a : CertContents) : CertOp → CertContents
  | .init => a
  | .setBlockInfo hash view => { a with blockHash := hash.bytes, view := view }
  | .addVote v => { a with signed := a.signed ++ [(v.getVoter,v.getSignature)] }
  | .addSignature signer signature => { a with signed := a.signed ++ [(signer,signature)] }
  | .fromProto data =>
    let block := p.unmarshalVoteData data.data
    ⟨block.blockHash,block.view,data.ids.zip data.signatures⟩
  | .toProto => a

/-- The message says what the certificate stands for. -/
structure Encodes (p : Platform) (a : CertContents) (c : Certificate) : Prop where
  ids : c.ids = a.ids
  signatures : c.signatures = a.signatures
  blockHash : (p.unmarshalVoteData c.data).blockHash = a.blockHash
  view : (p.unmarshalVoteData c.data).view = a.view

/-- A cached message is older than the certificate, unless it is the certificate. -/
def Current (p : Platform) (a : CertContents) (c : Certificate) : Prop :=
  c.ids.length < a.ids.length ∨ a.Encodes p c

theorem ids_zip {c : Certificate} (even : c.ids.length = c.signatures.length) :
    (c.ids.zip c.signatures).map Prod.fst = c.ids ∧ (c.ids.zip c.signatures).map Prod.snd = c.signatures :=
  ⟨List.map_fst_zip even.le,List.map_snd_zip even.ge⟩

theorem zip_signed (a : CertContents) : a.ids.zip a.signatures = a.signed := by
  rw [ids, signatures, List.zip_map']
  simp

theorem Encodes.apply {p : Platform} {a : CertContents} {c : Certificate} (encodes : a.Encodes p c) :
    a.apply p (.fromProto c) = a := by
  rw [CertContents.apply]
  simp only [encodes.blockHash, encodes.view, encodes.ids, encodes.signatures, zip_signed]

end CertContents

def contents (p : Platform) (data : ProtoVoteData) (ops : List CertOp) : CertContents :=
  ops.foldl (CertContents.apply p) ⟨data.blockHash,data.view,[]⟩

/-! ## The operations keep the fields in step -/

/-- The lists, the lookup table and the cache agree with the contents. -/
structure Represents (p : Platform) (a : CertContents) (bc : BlockCertificate) : Prop where
  blockHash : bc.data.blockHash = a.blockHash
  view : bc.data.view = a.view
  ids : bc.part.ids = a.ids
  sigs : bc.part.sigs = a.signatures
  voteMap : bc.part.voteMap = a.table
  cached : bc.valid = some true → ∀ c, bc.proto = some c → a.Current p c

namespace Represents

variable {p : Platform} {a : CertContents} {bc : BlockCertificate}

theorem build (rep : Represents p a bc) : a.Encodes p bc.build := by
  constructor
  · exact rep.ids
  · exact rep.sigs
  · rw [BlockCertificate.build, p.unmarshalVoteData_marshal]
    exact rep.blockHash
  · rw [BlockCertificate.build, p.unmarshalVoteData_marshal]
    exact rep.view

/-- Whether the message is rebuilt or read from the cache, it is current. -/
theorem toProto (rep : Represents p a bc) : a.Encodes p bc.toProto.1 ∧ Represents p a bc.toProto.2 := by
  have rebuilt : Represents p a { bc with proto := some bc.build, valid := some true } := by
    refine { rep with cached := fun _ c same => ?_ }
    obtain rfl := Option.some.inj same
    exact Or.inr rep.build
  rw [BlockCertificate.toProto]
  cases stored : bc.proto with
  | none => exact ⟨rep.build,rebuilt⟩
  | some c =>
    by_cases stale : bc.valid ≠ some true ∨ c.ids.length ≠ bc.part.ids.length
    · simp only [stale, if_true]
      exact ⟨rep.build,rebuilt⟩
    · simp only [stale, if_false]
      simp only [not_or, not_not] at stale
      refine ⟨?_,rep⟩
      rcases rep.cached stale.1 c stored with older | encodes
      · rw [stale.2, rep.ids] at older
        exact absurd older (lt_irrefl _)
      · exact encodes

theorem addSignature (rep : Represents p a bc) (signer : Nat) (signature : Bytes) :
    Represents p (a.apply p (.addSignature signer signature)) (bc.addSignature signer signature) := by
  constructor
  · exact rep.blockHash
  · exact rep.view
  · simp [BlockCertificate.addSignature, CertContents.apply, CertContents.ids, rep.ids]
  · simp [BlockCertificate.addSignature, CertContents.apply, CertContents.signatures, rep.sigs]
  · simp [BlockCertificate.addSignature, CertContents.apply, CertContents.table, rep.voteMap]
  · -- a message that was current before is now older by one signer
    intro flag c stored
    left
    rcases rep.cached flag c stored with older | encodes
    · simp only [CertContents.apply, CertContents.ids, List.map_append, List.length_append] at older ⊢
      omega
    · simp [CertContents.apply, CertContents.ids, encodes.ids]

theorem invalidate (rep : Represents p a bc) : Represents p a { bc with valid := some false } := by
  refine { rep with cached := ?_ }
  intro flag
  simp at flag

theorem addVote (rep : Represents p a bc) (v : ProtoVote) : Represents p (a.apply p (.addVote v)) (bc.addVote v) := by
  rw [BlockCertificate.addVote_eq]
  exact (rep.addSignature v.getVoter v.getSignature).invalidate

theorem setBlockInfo (rep : Represents p a bc) (hash : Hash) (view : Nat) :
    Represents p (a.apply p (.setBlockInfo hash view)) (bc.setBlockInfo hash view) := by
  constructor
  · rfl
  · rfl
  · exact rep.ids
  · exact rep.sigs
  · exact rep.voteMap
  · intro flag
    simp [BlockCertificate.setBlockInfo] at flag

/-- `FromProto` stores its argument as the cached message and does not touch the flag. -/
theorem fromProto {c : Certificate} (even : c.ids.length = c.signatures.length) (bc : BlockCertificate) :
    ∃ cert, bc.fromProto p c = some cert ∧ Represents p (a.apply p (.fromProto c)) cert := by
  obtain ⟨ids,signatures⟩ := CertContents.ids_zip even
  refine ⟨_,if_neg (by omega),?_⟩
  constructor
  · rfl
  · rfl
  · exact ids.symm
  · exact signatures.symm
  · rfl
  · intro _ d stored
    obtain rfl := Option.some.inj stored
    exact Or.inr ⟨ids.symm,signatures.symm,rfl,rfl⟩

theorem init (rep : Represents p a bc) (unsigned : a.signed = []) : Represents p a bc.init := by
  refine { rep with voteMap := ?_ }
  rw [CertContents.table, unsigned]
  rfl

end Represents

/-- Before `Init` nothing is signed. -/
structure CertInvariant (p : Platform) (a : CertContents) (s : CertState) : Prop where
  represents : Represents p a s.cert
  unsigned : s.made = false → a.signed = []

theorem certMachine_progress {p : Platform} {a : CertContents} {s : CertState} {op : CertOp} (inv : CertInvariant p a s)
    (admitted : (certMachine p).enabled s op) :
    ∃ t, (certMachine p).step s op = some t ∧ CertInvariant p (a.apply p op) t := by
  have rep := inv.represents
  have signed {b : CertContents} {cert : BlockCertificate} (rep : Represents p b cert) : CertInvariant p b ⟨cert,true⟩ := by
    refine ⟨rep,?_⟩
    intro unmade
    simp at unmade
  cases op with
  | init => exact ⟨_,rfl,signed (rep.init (inv.unsigned admitted))⟩
  | setBlockInfo hash view => exact ⟨_,rfl,rep.setBlockInfo hash view,inv.unsigned⟩
  | addVote v =>
    have made : s.made = true := admitted
    refine ⟨_,if_pos made,?_⟩
    rw [made]
    exact signed (rep.addVote v)
  | addSignature signer signature =>
    have made : s.made = true := admitted
    refine ⟨_,if_pos made,?_⟩
    rw [made]
    exact signed (rep.addSignature signer signature)
  | fromProto data =>
    obtain ⟨cert,decoded,rep⟩ := Represents.fromProto (a := a) admitted.2 s.cert
    exact ⟨_,congrArg (Option.map _) decoded,signed rep⟩
  | toProto => exact ⟨_,rfl,rep.toProto.2,inv.unsigned⟩

theorem certMachine_run {p : Platform} {data : ProtoVoteData} {ops : List CertOp} {s : CertState}
    (run : (certMachine p).Run (.start data) ops s) : CertInvariant p (contents p data ops) s := by
  refine run.history (I := fun ops s => CertInvariant p (contents p data ops) s) ?_ ?_
  · refine ⟨⟨rfl,rfl,rfl,rfl,rfl,?_⟩,fun _ => rfl⟩
    intro flag
    simp [CertState.start, BlockCertificate.new] at flag
  · intro past s op t _ inv admitted moved
    obtain ⟨next,same,after⟩ := certMachine_progress inv admitted
    obtain rfl := Option.some.inj (same.symm.trans moved)
    simpa [contents] using after

/-- After every sequence of operations the message that `ToProto` returns says what was put into
the certificate, and a fresh certificate that reads it answers every query alike. -/
theorem toProto_coherent (p : Platform) (data : ProtoVoteData) {ops : List CertOp} {s : CertState}
    (run : (certMachine p).Run (.start data) ops s) :
    (∀ op, (certMachine p).enabled s op → ((certMachine p).step s op).isSome) ∧
    (contents p data ops).Encodes p s.cert.toProto.1 ∧
    s.cert.getBlockInfo p = (p.toHash (contents p data ops).blockHash,(contents p data ops).view) ∧
    s.cert.getSigners = (contents p data ops).ids ∧
    ∃ fresh, BlockCertificate.new.fromProto p s.cert.toProto.1 = some fresh ∧
      fresh.getBlockInfo p = s.cert.getBlockInfo p ∧
      fresh.getSigners = s.cert.getSigners ∧
      fresh.getNumSigners = s.cert.getNumSigners ∧
      ∀ id, fresh.getSignatureFromID id = s.cert.getSignatureFromID id := by
  have inv := certMachine_run run
  have rep := inv.represents
  have encodes := rep.toProto.1
  have even : s.cert.toProto.1.ids.length = s.cert.toProto.1.signatures.length := by
    rw [encodes.ids, encodes.signatures]
    simp [CertContents.ids, CertContents.signatures]
  obtain ⟨fresh,decoded,copy⟩ := Represents.fromProto (a := contents p data ops) even .new
  rw [encodes.apply] at copy
  have info {bc : BlockCertificate} (rep : Represents p (contents p data ops) bc) :
      bc.getBlockInfo p = (p.toHash (contents p data ops).blockHash,(contents p data ops).view) := by
    rw [BlockCertificate.getBlockInfo, rep.blockHash, rep.view]
  refine ⟨?_,encodes,info rep,rep.ids,fresh,decoded,?_,?_,?_,?_⟩
  · intro op admitted
    obtain ⟨t,moved,_⟩ := certMachine_progress inv admitted
    simp [moved]
  · rw [info copy, info rep]
  · exact copy.ids.trans rep.ids.symm
  · exact congrArg List.length (copy.ids.trans rep.ids.symm)
  · intro id
    rw [BlockCertificate.getSignatureFromID, copy.voteMap, ← rep.voteMap]
    rfl

/-- A message read into a certificate that was already encoded, then a signature that leaves the
flag set: the message is rebuilt, and the signer that is listed twice has its last signature. -/
theorem toProto_after_addSignature :
    let received : Certificate := ⟨ProtoVoteData.marshal ⟨List.replicate 32 7,4,0⟩,[[1],[2]],[5,6]⟩
    ∃ s, (certMachine transparent).Run (.start ⟨[],0,0⟩)
        [.setBlockInfo emptyHash 3,.toProto,.init,.fromProto received,.addSignature 5 [9]] s ∧
      s.cert.toProto.1.ids = [5,6,5] ∧ s.cert.toProto.1.signatures = [[1],[2],[9]] ∧
      ∃ fresh, BlockCertificate.new.fromProto transparent s.cert.toProto.1 = some fresh ∧
        fresh.getSignatureFromID 5 = some [9] := by
  intro received
  obtain ⟨s,run,latest⟩ : ∃ s, (certMachine transparent).Run (.start ⟨[],0,0⟩)
      [.setBlockInfo emptyHash 3,.toProto,.init,.fromProto received,.addSignature 5 [9]] s ∧
      s.cert.getSignatureFromID 5 = some [9] := by
    apply Guarded.Machine.reaches
    decide +kernel
  obtain ⟨_,encodes,_,_,fresh,decoded,_,_,_,same⟩ := toProto_coherent transparent ⟨[],0,0⟩ run
  exact ⟨s,run,encodes.ids,encodes.signatures,fresh,decoded,(same 5).trans latest⟩

end ReputationSMR

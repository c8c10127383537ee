import ReputationSMR.Framing
import ReputationSMR.Message

/-! The byte streams between nodes and clients. `Broadcast`, `ClientBroadcast` and
`sendCommandToServer` write the bare encoding of each message; the receiving loops
decode whatever one `Read` returns. -/
namespace ReputationSMR

open Wire Framing

/-- `Marshal` and `Unmarshal` of the protocol-buffer library. -/
abbrev MsgCodec := Codec SyncHSMsg UInt8

/-- What `Broadcast`, `ClientBroadcast` and `sendCommandToServer` write to one stream. -/
def broadcastBytes (c : MsgCodec) (sent : List SyncHSMsg) : Bytes := c.written sent

/-- `react`: a message that does not decode is dropped. -/
def react (c : MsgCodec) (m : Bytes) : Option SyncHSMsg := c.unmarshal m

/-- `ProtoMsgHandler` starts a goroutine for every chunk it reads; `schedule` lists the
chunks in the order in which the goroutines reach `msgChannel`. -/
def protoMsgHandler (c : MsgCodec) (schedule : List Bytes) : List SyncHSMsg :=
  schedule.filterMap (react c)

def SyncHSMsg.getTx : SyncHSMsg → Option Bytes
  | .tx cmd => some cmd
  | _ => none

/-- The acknowledgement, which is its block and may lack it. -/
def SyncHSMsg.getAck : SyncHSMsg → Option (Option ProtoBlock)
  | .ack block => some block
  | _ => none

/-- The loop of `ClientMsgHandler`: the messages it decodes, and the commands it hands on. -/
def clientMsgHandler (c : MsgCodec) : List Bytes → List SyncHSMsg × List Bytes
  | [] => ([],[])
  | chunk :: rest =>
    match c.unmarshal chunk with
    | none => clientMsgHandler c rest
    | some inMsg =>
      match inMsg.getTx with
      | none => (inMsg :: (clientMsgHandler c rest).1,(clientMsgHandler c rest).2)
      | some cmd => (inMsg :: (clientMsgHandler c rest).1,cmd :: (clientMsgHandler c rest).2)

/-- The loop of `ackMsgHandler`: the messages it decodes, and what it puts in `voteChannel`. -/
def ackMsgHandler (c : MsgCodec) : List Bytes → List SyncHSMsg × List (Option (Option ProtoBlock))
  | [] => ([],[])
  | chunk :: rest =>
    match c.unmarshal chunk with
    | none => ackMsgHandler c rest
    | some inMsg => (inMsg :: (ackMsgHandler c rest).1,inMsg.getAck :: (ackMsgHandler c rest).2)

theorem clientMsgHandler_eq (c : MsgCodec) (chunks : List Bytes) :
    clientMsgHandler c chunks = (c.decodeAll chunks,(c.decodeAll chunks).filterMap SyncHSMsg.getTx) := by
  induction chunks with
  | nil => rfl
  | cons chunk rest ih =>
    simp only [clientMsgHandler, Codec.decodeAll, List.filterMap_cons] at ih ⊢
    cases c.unmarshal chunk with
    | none => exact ih
    | some inMsg =>
      simp only [ih, List.filterMap_cons]
      cases inMsg.getTx <;> rfl

theorem ackMsgHandler_eq (c : MsgCodec) (chunks : List Bytes) :
    ackMsgHandler c chunks = (c.decodeAll chunks,(c.decodeAll chunks).map SyncHSMsg.getAck) := by
  induction chunks with
  | nil => rfl
  | cons chunk rest ih =>
    simp only [ackMsgHandler, Codec.decodeAll, List.filterMap_cons] at ih ⊢
    cases c.unmarshal chunk with
    | none => exact ih
    | some inMsg => simp only [ih, List.map_cons]

/-- A receiving loop gets back the messages that were sent, in order, exactly when every
`Read` returned the bytes of one message, and for `ProtoMsgHandler` when moreover the
goroutines ran in the order of the chunks. -/
theorem framing_is_lossless_iff (c : MsgCodec) (kind : SyncHSMsg → Prop) (lawful : c.Lawful kind)
    (sent : List SyncHSMsg) (kinds : ∀ m ∈ sent, kind m) (chunks schedule : List Bytes)
    (stream : chunks.flatten = broadcastBytes c sent) (nonempty : ∀ chunk ∈ chunks, chunk ≠ [])
    (scheduled : schedule.Perm chunks) :
    (protoMsgHandler c schedule = sent ↔ chunks = sent.map c.marshal ∧ schedule = chunks) ∧
    ((clientMsgHandler c chunks).1 = sent ↔ chunks = sent.map c.marshal) ∧
    ((ackMsgHandler c chunks).1 = sent ↔ chunks = sent.map c.marshal) := by
  have inOrder := Codec.decodeAll_eq_iff lawful kinds stream nonempty (List.Perm.refl chunks)
  simp only [and_true] at inOrder
  refine ⟨Codec.decodeAll_eq_iff lawful kinds stream nonempty scheduled,?_,?_⟩
  · rw [clientMsgHandler_eq]
    exact inOrder
  · rw [ackMsgHandler_eq]
    exact inOrder

/-! ## The stream of a client

A client sends commands only, so its stream has one kind of message: field 6 of
`SyncHSMsg`, which as a member of a `oneof` is written even when it is empty. -/

def txField (cmd : Bytes) : Field := ⟨6,.bytes cmd⟩

def SyncHSMsg.txFields : SyncHSMsg → List Field
  | .tx cmd => [txField cmd]
  | _ => []

/-- The wire format of client commands; the last command of the input wins. -/
def clientCodec : MsgCodec where
  marshal m := encode m.txFields
  unmarshal input :=
    if (parse input).2 then
      match (collectBytes 6 (parse input).1).getLast? with
      | none => some .unset
      | some cmd => some (.tx cmd)
    else none

def SyncHSMsg.IsTx (m : SyncHSMsg) : Prop := ∃ cmd, m = .tx cmd

theorem txField_wellFormed (cmd : Bytes) : (txField cmd).WellFormed := ⟨by simp [txField],trivial⟩

theorem clientCodec_written (cmds : List Bytes) :
    clientCodec.written (cmds.map .tx) = encode (cmds.map txField) := by
  induction cmds with
  | nil => rfl
  | cons cmd cmds ih =>
    simp only [List.map_cons, Codec.written_cons, ih]
    simp [clientCodec,SyncHSMsg.txFields,encode]

theorem clientCodec_lawful : clientCodec.Lawful SyncHSMsg.IsTx := by
  refine ⟨?_,?_,?_⟩
  · rintro _ ⟨cmd,rfl⟩
    have scanned : parse (clientCodec.marshal (.tx cmd)) = ([txField cmd],true) :=
      parse_encode [txField cmd] (by simp [txField_wellFormed])
    simp only [clientCodec, SyncHSMsg.txFields] at scanned ⊢
    rw [scanned]
    simp [collectBytes,txField]
  · rintro whole _ start missing kinds ⟨cmd,rfl⟩ cut started open_
    obtain ⟨cmds,rfl⟩ : ∃ cmds : List Bytes, whole = cmds.map .tx := by
      refine ⟨whole.filterMap SyncHSMsg.getTx,?_⟩
      induction whole with
      | nil => rfl
      | cons m whole ih =>
        obtain ⟨cmd,rfl⟩ := kinds m List.mem_cons_self
        rw [List.filterMap_cons, SyncHSMsg.getTx, List.map_cons,
          ← ih fun w member => kinds w (List.mem_cons_of_mem _ member)]
    have front : ∀ f ∈ cmds.map txField, f.WellFormed := by
      intro f member
      obtain ⟨cmd,_,rfl⟩ := List.mem_map.mp member
      exact txField_wellFormed cmd
    have single : (txField cmd).encode = start ++ missing := by
      simpa [clientCodec,SyncHSMsg.txFields,encode] using cut
    have scanned := parse_append (cmds.map txField) front start
    rw [parse_cut (txField_wellFormed cmd) single started open_] at scanned
    rw [clientCodec_written]
    simp only [clientCodec, scanned, Bool.false_eq_true, if_false]
  · rintro _ input ⟨cmd,rfl⟩ decoded
    simp only [clientCodec] at decoded
    split at decoded
    next =>
      split at decoded
      next => simp at decoded
      next cmd' last =>
        obtain rfl : cmd' = cmd := by simpa using decoded
        have member := List.mem_of_getLast? last
        obtain ⟨f,scanned,value⟩ := List.mem_filterMap.mp member
        have same : f = txField cmd' := by
          obtain ⟨number,content⟩ := f
          cases content <;> simp_all [txField]
        have bound := length_of_mem_parse input (same ▸ scanned)
        simpa [clientCodec,SyncHSMsg.txFields,encode] using bound
    next => simp at decoded

/-- Two commands that arrive in two reads, handled in order. -/
theorem framing_is_lossless_two_reads :
    (clientMsgHandler clientCodec ([.tx [1],.tx [2]].map clientCodec.marshal)).1 = [.tx [1],.tx [2]] :=
  (framing_is_lossless_iff clientCodec SyncHSMsg.IsTx clientCodec_lawful [.tx [1],.tx [2]]
    (by simp [SyncHSMsg.IsTx]) ([.tx [1],.tx [2]].map clientCodec.marshal)
    ([.tx [1],.tx [2]].map clientCodec.marshal) rfl (by decide +kernel) (List.Perm.refl _)).2.1.mpr rfl

/-- Two commands that arrive in one read are decoded as the second one alone. -/
theorem two_messages_in_one_read :
    [[50,1,1,50,1,2]].flatten = broadcastBytes clientCodec [.tx [1],.tx [2]] ∧
    protoMsgHandler clientCodec [[50,1,1,50,1,2]] = [.tx [2]] ∧
    (clientMsgHandler clientCodec [[50,1,1,50,1,2]]).1 = [.tx [2]] ∧
    (ackMsgHandler clientCodec [[50,1,1,50,1,2]]).1 = [.tx [2]] := by
  decide +kernel

end ReputationSMR

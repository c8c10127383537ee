import ReputationSMR.Wire

/-! Message types of the protocol-buffer format. A type is the table of its fields; what
is written for a message, and what a decoder makes of the fields that it scans, are read
off the table. A decoder starts from a message and adds to it field by field, so input
that is the encoding of several messages is decoded as their merge. A field of an unknown
number, or of another wire type than that of the table, changes nothing. -/
namespace Wire

variable {α β : Type}

/-- Access to one component of a record. -/
structure Lens (α β : Type) where
  get : α → β
  set : α → β → α
  get_set : ∀ a x, get (set a x) = x := by intros; rfl
  set_get : ∀ a, set a (get a) = a := by intros; rfl
  set_set : ∀ a x y, set (set a x) y = set a y := by intros; rfl

/-- One line of the table: the values that are written for the field, what a decoder does
with one occurrence, and the field of two merged messages. -/
structure Member (α : Type) where
  number : Nat
  write : α → List Value
  absorb : α → Value → Option α
  merge : α → α → α
  valid : ∀ m, ∀ v ∈ write m, Field.WellFormed ⟨number,v⟩
  absorbs : ∀ a m, (write m).foldlM absorb a = some (merge a m)

structure Schema (α : Type) where
  empty : α
  members : List (Member α)
  distinct : (members.map Member.number).Nodup
  restores : ∀ m, members.foldl (fun a member => member.merge a m) empty = m

namespace Schema

variable (s : Schema α)

def fields (m : α) : List Field :=
  s.members.flatMap fun member => (member.write m).map (Field.mk member.number)

def marshal (m : α) : Bytes := encode (s.fields m)

def absorb (a : α) (f : Field) : Option α :=
  match s.members.find? fun member => member.number = f.number with
  | none => some a
  | some member => member.absorb a f.value

/-- The fields of the input added to a message. -/
def decode (a : α) (input : Bytes) : Option α :=
  if (parse input).2 then (parse input).1.foldlM s.absorb a else none

def unmarshal (input : Bytes) : Option α := s.decode s.empty input

def merge (a m : α) : α := s.members.foldl (fun a member => member.merge a m) a

theorem wellFormed (m : α) : ∀ f ∈ s.fields m, f.WellFormed := by
  intro f listed
  obtain ⟨member,_,written⟩ := List.mem_flatMap.mp listed
  obtain ⟨v,value,rfl⟩ := List.mem_map.mp written
  exact member.valid m v value

theorem find_member {members : List (Member α)} (distinct : (members.map Member.number).Nodup)
    {member : Member α} (listed : member ∈ members) :
    members.find? (fun other => other.number = member.number) = some member := by
  induction members with
  | nil => simp at listed
  | cons first rest ih =>
    rw [List.map_cons, List.nodup_cons] at distinct
    rw [List.find?_cons]
    rcases List.mem_cons.mp listed with rfl | later
    · simp
    · have apart : first.number ≠ member.number := fun same =>
        distinct.1 (same ▸ List.mem_map_of_mem later)
      simpa [apart] using ih distinct.2 later

/-- The decoder follows the table: what is written for a field reaches that field only. -/
theorem absorb_written {member : Member α} (listed : member ∈ s.members) (a m : α) :
    ((member.write m).map (Field.mk member.number)).foldlM s.absorb a = some (member.merge a m) := by
  have dispatch (a : α) (v : Value) : s.absorb a ⟨member.number,v⟩ = member.absorb a v := by
    simp only [absorb, find_member s.distinct listed]
  rw [List.foldlM_map]
  simp only [dispatch]
  exact member.absorbs a m

theorem absorb_fields (a m : α) : (s.fields m).foldlM s.absorb a = some (s.merge a m) := by
  -- the induction is on the part of the table that is still to come
  have walk (rest : List (Member α)) (listed : ∀ member ∈ rest, member ∈ s.members) (a : α) :
      (rest.flatMap fun member => (member.write m).map (Field.mk member.number)).foldlM s.absorb a =
        some (rest.foldl (fun a member => member.merge a m) a) := by
    induction rest generalizing a with
    | nil => rfl
    | cons member rest ih =>
      have first := s.absorb_written (listed member List.mem_cons_self) a m
      rw [List.flatMap_cons, List.foldlM_append, first]
      exact ih (fun other later => listed other (List.mem_cons_of_mem member later)) _
  exact walk s.members (fun _ listed => listed) a

@[simp] theorem merge_empty (m : α) : s.merge s.empty m = m := s.restores m

/-- Bytes that follow the encoding of a message are added to it. -/
theorem decode_append (a m : α) (rest : Bytes) :
    s.decode a (s.marshal m ++ rest) = s.decode (s.merge a m) rest := by
  simp only [decode, marshal, parse_append _ (s.wellFormed m), List.foldlM_append, s.absorb_fields]
  rfl

theorem decode_nil (a : α) : s.decode a [] = some a := rfl

theorem decode_marshal (a m : α) : s.decode a (s.marshal m) = some (s.merge a m) := by
  have alone := s.decode_append a m []
  rwa [List.append_nil, decode_nil] at alone

theorem unmarshal_marshal (m : α) : s.unmarshal (s.marshal m) = some m := by
  rw [unmarshal, decode_marshal, merge_empty]

end Schema

/-! ## Kinds of fields -/

namespace Member

/-- A scalar at its default value is not written, so merging keeps the earlier one. -/
def mergeScalar [DecidableEq β] (default old new : β) : β := if new = default then old else new

@[simp] theorem mergeScalar_default [DecidableEq β] (default new : β) :
    mergeScalar default default new = new := by
  unfold mergeScalar
  split
  next same => exact same.symm
  next => rfl

/-- A scalar: the last occurrence wins. -/
def scalar [DecidableEq β] (number : Nat) (default : β) (write : β → Value) (read : Value → Option β)
    (valid : ∀ x, Field.WellFormed ⟨number,write x⟩) (reads : ∀ x, read (write x) = some x)
    (at_ : Lens α β) : Member α where
  number := number
  write m := if at_.get m = default then [] else [write (at_.get m)]
  absorb a v := some (((read v).map (at_.set a)).getD a)
  merge a m := at_.set a (mergeScalar default (at_.get a) (at_.get m))
  valid m v written := by
    split at written
    next => simp at written
    next =>
      obtain rfl := List.mem_singleton.mp written
      exact valid _
  absorbs a m := by
    unfold mergeScalar
    split
    next => simp [at_.set_get]
    next => simp [reads]

def asUint : Value → Option Nat
  | .varint n => some n
  | _ => none

def asBytes : Value → Option Bytes
  | .bytes b => some b
  | _ => none

def uint (number : Nat) (positive : number ≠ 0) (at_ : Lens α Nat) : Member α :=
  scalar number 0 .varint asUint (fun _ => ⟨positive,trivial⟩) (fun _ => rfl) at_

def bytes (number : Nat) (positive : number ≠ 0) (at_ : Lens α Bytes) : Member α :=
  scalar number [] .bytes asBytes (fun _ => ⟨positive,trivial⟩) (fun _ => rfl) at_

@[simp] theorem uint_merge (number : Nat) (positive : number ≠ 0) (at_ : Lens α Nat) (a m : α) :
    (uint number positive at_).merge a m = at_.set a (mergeScalar 0 (at_.get a) (at_.get m)) := rfl

@[simp] theorem bytes_merge (number : Nat) (positive : number ≠ 0) (at_ : Lens α Bytes) (a m : α) :
    (bytes number positive at_).merge a m = at_.set a (mergeScalar [] (at_.get a) (at_.get m)) := rfl

@[simp] theorem uint_fields (number : Nat) (positive : number ≠ 0) (at_ : Lens α Nat) (m : α) :
    ((uint number positive at_).write m).map (Field.mk (uint number positive at_).number) =
      uintField number (at_.get m) := by
  simp only [uint, scalar, uintField]
  split <;> rfl

@[simp] theorem bytes_fields (number : Nat) (positive : number ≠ 0) (at_ : Lens α Bytes) (m : α) :
    ((bytes number positive at_).write m).map (Field.mk (bytes number positive at_).number) =
      bytesField number (at_.get m) := by
  simp only [bytes, scalar, bytesField]
  split <;> rfl

/-- A repeated field: every occurrence is appended, the empty ones too. -/
def repeated (number : Nat) (positive : number ≠ 0) (at_ : Lens α (List Bytes)) : Member α where
  number := number
  write m := (at_.get m).map .bytes
  absorb a v := some (((asBytes v).map fun b => at_.set a (at_.get a ++ [b])).getD a)
  merge a m := at_.set a (at_.get a ++ at_.get m)
  valid m v written := by
    obtain ⟨b,_,rfl⟩ := List.mem_map.mp written
    exact ⟨positive,trivial⟩
  absorbs a m := by
    rw [List.foldlM_map]
    generalize at_.get m = added
    induction added generalizing a with
    | nil => simp [at_.set_get]
    | cons b added ih =>
      rw [List.foldlM_cons]
      refine (ih (at_.set a (at_.get a ++ [b]))).trans ?_
      rw [at_.get_set, at_.set_set, List.append_assoc]
      rfl

@[simp] theorem repeated_merge (number : Nat) (positive : number ≠ 0) (at_ : Lens α (List Bytes))
    (a m : α) : (repeated number positive at_).merge a m = at_.set a (at_.get a ++ at_.get m) := rfl

def mergeMessage (s : Schema β) (old new : Option β) : Option β :=
  match new with
  | none => old
  | some x => some (s.merge (old.getD s.empty) x)

@[simp] theorem mergeMessage_none (s : Schema β) (new : Option β) : mergeMessage s none new = new := by
  cases new with
  | none => rfl
  | some x => exact congrArg some (s.merge_empty x)

/-- A message inside a message: occurrences are merged. -/
def message (number : Nat) (positive : number ≠ 0) (s : Schema β) (at_ : Lens α (Option β)) :
    Member α where
  number := number
  write m := (at_.get m).toList.map fun x => .bytes (s.marshal x)
  absorb a v :=
    match asBytes v with
    | none => some a
    | some b => (s.decode ((at_.get a).getD s.empty) b).map fun x => at_.set a (some x)
  merge a m := at_.set a (mergeMessage s (at_.get a) (at_.get m))
  valid m v written := by
    obtain ⟨x,_,rfl⟩ := List.mem_map.mp written
    exact ⟨positive,trivial⟩
  absorbs a m := by
    cases found : at_.get m with
    | none => simp [mergeMessage,at_.set_get]
    | some x => simp [mergeMessage,asBytes,s.decode_marshal]

@[simp] theorem message_merge (number : Nat) (positive : number ≠ 0) (s : Schema β)
    (at_ : Lens α (Option β)) (a m : α) : (message number positive s at_).merge a m =
      at_.set a (mergeMessage s (at_.get a) (at_.get m)) := rfl

/-- A message that is one of the alternatives of a `oneof`: an occurrence of the
alternative that is set is merged, any other replaces what is set. -/
def alternative (number : Nat) (positive : number ≠ 0) (s : Schema β) (inject : β → α)
    (project : α → Option β) : Member α where
  number := number
  write m := (project m).toList.map fun x => .bytes (s.marshal x)
  absorb a v :=
    match asBytes v with
    | none => some a
    | some b => (s.decode ((project a).getD s.empty) b).map inject
  merge a m := (project m).elim a fun x => inject (s.merge ((project a).getD s.empty) x)
  valid m v written := by
    obtain ⟨x,_,rfl⟩ := List.mem_map.mp written
    exact ⟨positive,trivial⟩
  absorbs a m := by
    cases found : project m with
    | none => simp
    | some x => simp [asBytes,s.decode_marshal]

@[simp] theorem alternative_merge (number : Nat) (positive : number ≠ 0) (s : Schema β) (inject : β → α)
    (project : α → Option β) (a m : α) : (alternative number positive s inject project).merge a m =
      (project m).elim a fun x => inject (s.merge ((project a).getD s.empty) x) := rfl

/-- Bytes that are one of the alternatives are written even when there are none. -/
def alternativeBytes (number : Nat) (positive : number ≠ 0) (inject : Bytes → α)
    (project : α → Option Bytes) : Member α where
  number := number
  write m := (project m).toList.map .bytes
  absorb a v := some ((asBytes v).elim a inject)
  merge a m := (project m).elim a inject
  valid m v written := by
    obtain ⟨x,_,rfl⟩ := List.mem_map.mp written
    exact ⟨positive,trivial⟩
  absorbs a m := by
    cases found : project m with
    | none => rfl
    | some x => rfl

@[simp] theorem alternativeBytes_merge (number : Nat) (positive : number ≠ 0) (inject : Bytes → α)
    (project : α → Option Bytes) (a m : α) :
    (alternativeBytes number positive inject project).merge a m = (project m).elim a inject := rfl

end Member

end Wire

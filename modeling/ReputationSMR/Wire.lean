import Mathlib.Data.List.Basic
import Mathlib.Tactic.Common

/-! The protocol-buffer wire format: base-128 varints, tagged fields, and the
left-to-right scan that a decoder makes. A scan that meets a malformed field
keeps the fields before it and reports the failure, as a decoder does whose
caller ignores the error. Integers are unbounded. -/
namespace Wire

abbrev Bytes := List UInt8

/-! ## Varints -/

/-- Seven bits a byte, least significant group first; `fuel` bounds the groups. -/
def varintGo : Nat → Nat → Bytes
  | 0, n => [UInt8.ofNat n]
  | fuel + 1, n =>
    if n < 128 then [UInt8.ofNat n] else UInt8.ofNat (n % 128 + 128) :: varintGo fuel (n / 128)

def varint (n : Nat) : Bytes := varintGo n n

def readVarint : Bytes → Option (Nat × Bytes)
  | [] => none
  | b :: rest =>
    if b.toNat < 128 then some (b.toNat,rest)
    else (readVarint rest).map fun (high,left) => (b.toNat - 128 + 128 * high,left)

theorem readVarint_varintGo (fuel n : Nat) (rest : Bytes) (enough : n ≤ fuel) :
    readVarint (varintGo fuel n ++ rest) = some (n,rest) := by
  induction fuel generalizing n with
  | zero =>
    obtain rfl : n = 0 := by omega
    simp [varintGo,readVarint]
  | succ fuel ih =>
    by_cases small : n < 128
    · have byte : (UInt8.ofNat n).toNat = n := by
        rw [UInt8.toNat_ofNat']; omega
      simp [varintGo,readVarint,small,byte]
    · have byte : (UInt8.ofNat (n % 128 + 128)).toNat = n % 128 + 128 := by
        rw [UInt8.toNat_ofNat']; omega
      have tail := ih (n / 128) (by omega)
      simp only [varintGo, if_neg small, List.cons_append, readVarint, byte, tail, Option.map_some]
      rw [if_neg (by omega)]
      simp only [Option.some.injEq, Prod.mk.injEq, and_true]
      omega

theorem readVarint_varint (n : Nat) (rest : Bytes) :
    readVarint (varint n ++ rest) = some (n,rest) :=
  readVarint_varintGo n n rest (Nat.le_refl n)

theorem varint_ne_nil (n : Nat) : varint n ≠ [] := by
  unfold varint
  cases n with
  | zero => simp [varintGo]
  | succ k => simp only [varintGo]; split <;> simp

theorem varintGo_fuel (fuel n : Nat) (enough : n ≤ fuel) : varintGo fuel n = varint n := by
  have step (fuel n : Nat) (enough : n ≤ fuel) : varintGo (fuel + 1) n = varintGo fuel n := by
    induction fuel generalizing n with
    | zero =>
      obtain rfl : n = 0 := by omega
      rfl
    | succ fuel ih =>
      by_cases small : n < 128
      · simp only [varintGo, if_pos small]
      · have tail := ih (n / 128) (by omega)
        rw [varintGo.eq_2 n (fuel + 1), varintGo.eq_2 n fuel, if_neg small, if_neg small, tail]
  obtain ⟨extra,rfl⟩ := Nat.exists_eq_add_of_le enough
  clear enough
  induction extra with
  | zero => rfl
  | succ extra ih => rw [← Nat.add_assoc, step _ n (by omega), ih]

theorem readVarint_append {input rest : Bytes} {n : Nat} (more : Bytes)
    (read : readVarint input = some (n,rest)) : readVarint (input ++ more) = some (n,rest ++ more) := by
  induction input generalizing n with
  | nil => simp [readVarint] at read
  | cons b input ih =>
    simp only [readVarint, List.cons_append] at read ⊢
    split at read
    next small =>
      obtain ⟨rfl,rfl⟩ := Prod.mk.inj (Option.some.inj read)
      rw [if_pos small]
    next large =>
      obtain ⟨⟨high,left⟩,inner,same⟩ := Option.map_eq_some_iff.mp read
      obtain ⟨rfl,rfl⟩ := Prod.mk.inj same
      rw [if_neg large, ih inner]
      rfl

/-- No shorter string is read as the same number. -/
theorem varint_shortest {input rest : Bytes} {n : Nat} (read : readVarint input = some (n,rest)) :
    (varint n).length + rest.length ≤ input.length := by
  induction input generalizing n with
  | nil => simp [readVarint] at read
  | cons b input ih =>
    simp only [readVarint] at read
    split at read
    next small =>
      obtain ⟨rfl,rfl⟩ := Prod.mk.inj (Option.some.inj read)
      have one : (varint b.toNat).length = 1 := by
        rw [varint]
        cases size : b.toNat with
        | zero => rfl
        | succ k => rw [varintGo, if_pos (by omega)]; rfl
      simp only [one, List.length_cons]
      omega
    next large =>
      obtain ⟨⟨high,left⟩,inner,same⟩ := Option.map_eq_some_iff.mp read
      obtain ⟨rfl,rfl⟩ := Prod.mk.inj same
      have tail : (varint high).length + left.length ≤ input.length := ih inner
      have bound : (varint (b.toNat - 128 + 128 * high)).length ≤ (varint high).length + 1 := by
        have byte := b.toNat_lt
        have group : (b.toNat - 128 + 128 * high) / 128 = high := by omega
        rw [varint]
        cases size : b.toNat - 128 + 128 * high with
        | zero => simp [varintGo]
        | succ k =>
          rw [varintGo]
          split
          next => simp
          next => rw [← size, group, varintGo_fuel k high (by omega)]; simp
      simp only [List.length_cons]
      omega

/-! ## Fields -/

inductive Value where
  | varint (n : Nat)
  | fixed64 (b : Bytes)
  | bytes (b : Bytes)
  | fixed32 (b : Bytes)
  deriving DecidableEq

structure Field where
  number : Nat
  value : Value
  deriving DecidableEq

def Value.wireType : Value → Nat
  | .varint _ => 0
  | .fixed64 _ => 1
  | .bytes _ => 2
  | .fixed32 _ => 5

def Value.payload : Value → Bytes
  | .varint n => Wire.varint n
  | .fixed64 b => b
  | .bytes b => Wire.varint b.length ++ b
  | .fixed32 b => b

def Field.encode (f : Field) : Bytes :=
  varint (8 * f.number + f.value.wireType) ++ f.value.payload

/-- A field number is positive and a fixed-width value has its width. -/
def Field.WellFormed (f : Field) : Prop :=
  f.number ≠ 0 ∧ match f.value with
    | .fixed64 b => b.length = 8
    | .fixed32 b => b.length = 4
    | _ => True

def readBlock (n : Nat) (input : Bytes) : Option (Bytes × Bytes) :=
  if n ≤ input.length then some (input.take n,input.drop n) else none

theorem readBlock_append (b rest : Bytes) : readBlock b.length (b ++ rest) = some (b,rest) := by
  simp [readBlock]

def readField (input : Bytes) : Option (Field × Bytes) := do
  let (tag,rest) ← readVarint input
  if tag / 8 = 0 then none
  else if tag % 8 = 0 then
    let (n,rest) ← readVarint rest
    some (⟨tag / 8,.varint n⟩,rest)
  else if tag % 8 = 1 then
    let (b,rest) ← readBlock 8 rest
    some (⟨tag / 8,.fixed64 b⟩,rest)
  else if tag % 8 = 2 then
    let (n,rest) ← readVarint rest
    let (b,rest) ← readBlock n rest
    some (⟨tag / 8,.bytes b⟩,rest)
  else if tag % 8 = 5 then
    let (b,rest) ← readBlock 4 rest
    some (⟨tag / 8,.fixed32 b⟩,rest)
  else none

theorem readField_encode (f : Field) (rest : Bytes) (wellFormed : f.WellFormed) :
    readField (f.encode ++ rest) = some (f,rest) := by
  obtain ⟨number,value⟩ := f
  obtain ⟨positive,width⟩ := wellFormed
  simp only at positive
  cases value with
  | varint n =>
    simp [readField,Field.encode,Value.wireType,Value.payload,readVarint_varint]
    omega
  | fixed64 b =>
    have tag : (8 * number + 1) / 8 = number ∧ (8 * number + 1) % 8 = 1 := by omega
    have block := readBlock_append b rest
    rw [show b.length = 8 from width] at block
    simp [readField,Field.encode,Value.wireType,Value.payload,readVarint_varint,tag,block]
    omega
  | bytes b =>
    have tag : (8 * number + 2) / 8 = number ∧ (8 * number + 2) % 8 = 2 := by omega
    simp [readField,Field.encode,Value.wireType,Value.payload,readVarint_varint,tag,
      readBlock_append]
    omega
  | fixed32 b =>
    have tag : (8 * number + 5) / 8 = number ∧ (8 * number + 5) % 8 = 5 := by omega
    have block := readBlock_append b rest
    rw [show b.length = 4 from width] at block
    simp [readField,Field.encode,Value.wireType,Value.payload,readVarint_varint,tag,block]
    omega

theorem readBlock_more {n : Nat} {input b rest : Bytes} (more : Bytes)
    (read : readBlock n input = some (b,rest)) : readBlock n (input ++ more) = some (b,rest ++ more) := by
  simp only [readBlock] at read ⊢
  split at read
  next fits =>
    obtain ⟨rfl,rfl⟩ := Prod.mk.inj (Option.some.inj read)
    rw [if_pos (by simp; omega), List.take_append_of_le_length fits, List.drop_append_of_le_length fits]
  next => contradiction

theorem readBlock_length {n : Nat} {input b rest : Bytes} (read : readBlock n input = some (b,rest)) :
    b.length = n ∧ b.length + rest.length = input.length := by
  simp only [readBlock] at read
  split at read
  next fits =>
    obtain ⟨rfl,rfl⟩ := Prod.mk.inj (Option.some.inj read)
    simp only [List.length_take, List.length_drop]
    omega
  next => contradiction

theorem readField_cases {input rest : Bytes} {f : Field} (read : readField input = some (f,rest)) :
    ∃ tag body, readVarint input = some (tag,body) ∧ tag / 8 = f.number ∧ f.number ≠ 0 ∧
      tag = 8 * f.number + f.value.wireType ∧
      match f.value with
      | .varint n => readVarint body = some (n,rest)
      | .fixed64 b => readBlock 8 body = some (b,rest)
      | .bytes b => ∃ left, readVarint body = some (b.length,left) ∧ readBlock b.length left = some (b,rest)
      | .fixed32 b => readBlock 4 body = some (b,rest) := by
  simp only [readField, Option.bind_eq_bind, Option.bind_eq_some_iff] at read
  obtain ⟨⟨tag,body⟩,first,read⟩ := read
  refine ⟨tag,body,first,?_⟩
  split at read
  next => contradiction
  next positive =>
    split at read
    next kind =>
      obtain ⟨⟨n,left⟩,value,same⟩ := Option.bind_eq_some_iff.mp read
      obtain ⟨rfl,rfl⟩ := Prod.mk.inj (Option.some.inj same)
      exact ⟨rfl,positive,by simp only [Value.wireType]; omega,value⟩
    next =>
      split at read
      next kind =>
        obtain ⟨⟨b,left⟩,value,same⟩ := Option.bind_eq_some_iff.mp read
        obtain ⟨rfl,rfl⟩ := Prod.mk.inj (Option.some.inj same)
        exact ⟨rfl,positive,by simp only [Value.wireType]; omega,value⟩
      next =>
        split at read
        next kind =>
          obtain ⟨⟨n,left⟩,size,read⟩ := Option.bind_eq_some_iff.mp read
          obtain ⟨⟨b,left'⟩,value,same⟩ := Option.bind_eq_some_iff.mp read
          obtain ⟨rfl,rfl⟩ := Prod.mk.inj (Option.some.inj same)
          obtain ⟨rfl,_⟩ := readBlock_length value
          exact ⟨rfl,positive,by simp only [Value.wireType]; omega,left,size,value⟩
        next =>
          split at read
          next kind =>
            obtain ⟨⟨b,left⟩,value,same⟩ := Option.bind_eq_some_iff.mp read
            obtain ⟨rfl,rfl⟩ := Prod.mk.inj (Option.some.inj same)
            exact ⟨rfl,positive,by simp only [Value.wireType]; omega,value⟩
          next => contradiction

/-- No shorter string is read as the same field. -/
theorem encode_shortest {input rest : Bytes} {f : Field} (read : readField input = some (f,rest)) :
    f.encode.length + rest.length ≤ input.length := by
  obtain ⟨tag,body,first,_,_,rfl,value⟩ := readField_cases read
  have head := varint_shortest first
  obtain ⟨number,value'⟩ := f
  simp only [Field.encode, List.length_append] at head ⊢
  cases value' with
  | varint n =>
    have tail := varint_shortest value
    simp only [Value.payload]
    omega
  | fixed64 b =>
    have tail := readBlock_length value
    simp only [Value.payload]
    omega
  | bytes b =>
    obtain ⟨left,size,block⟩ := value
    have count := varint_shortest size
    have tail := readBlock_length block
    simp only [Value.payload, List.length_append]
    omega
  | fixed32 b =>
    have tail := readBlock_length value
    simp only [Value.payload]
    omega

theorem readField_append {input rest : Bytes} {f : Field} (more : Bytes)
    (read : readField input = some (f,rest)) : readField (input ++ more) = some (f,rest ++ more) := by
  obtain ⟨tag,body,first,number,positive,kind,value⟩ := readField_cases read
  have head := readVarint_append more first
  obtain ⟨number',value'⟩ := f
  simp only at number positive kind value
  subst number
  have large : 8 ≤ tag := by omega
  cases value' with
  | varint n =>
    have wire : tag % 8 = 0 := by simp only [Value.wireType] at kind; omega
    simp [readField,head,large,wire,readVarint_append more value]
  | fixed64 b =>
    have wire : tag % 8 = 1 := by simp only [Value.wireType] at kind; omega
    simp [readField,head,large,wire,readBlock_more more value]
  | bytes b =>
    have wire : tag % 8 = 2 := by simp only [Value.wireType] at kind; omega
    obtain ⟨left,size,block⟩ := value
    simp [readField,head,large,wire,readVarint_append more size,readBlock_more more block]
  | fixed32 b =>
    have wire : tag % 8 = 5 := by simp only [Value.wireType] at kind; omega
    simp [readField,head,large,wire,readBlock_more more value]

/-! ## Messages -/

def encode (fields : List Field) : Bytes := fields.flatMap Field.encode

/-- The fields before the first malformed one, and whether the input was well formed. -/
def parseGo : Nat → Bytes → List Field × Bool
  | _, [] => ([],true)
  | 0, _ :: _ => ([],false)
  | fuel + 1, b :: input =>
    match readField (b :: input) with
    | none => ([],false)
    | some (f,rest) => (f :: (parseGo fuel rest).1,(parseGo fuel rest).2)

def parse (input : Bytes) : List Field × Bool := parseGo input.length input

theorem Field.encode_ne_nil (f : Field) : f.encode ≠ [] := by
  simp [Field.encode,varint_ne_nil]

theorem length_le_encode (fields : List Field) : fields.length ≤ (encode fields).length := by
  induction fields with
  | nil => simp
  | cons f rest ih =>
    have positive := List.length_pos_iff.mpr f.encode_ne_nil
    simp only [encode, List.flatMap_cons, List.length_cons, List.length_append] at ih ⊢
    omega

theorem parseGo_encode (fields : List Field) (wellFormed : ∀ f ∈ fields, f.WellFormed) (fuel : Nat)
    (enough : fields.length ≤ fuel) : parseGo fuel (encode fields) = (fields,true) := by
  induction fields generalizing fuel with
  | nil => cases fuel <;> rfl
  | cons f rest ih =>
    obtain ⟨fuel,rfl⟩ : ∃ k, fuel = k + 1 := ⟨fuel - 1, by simp at enough; omega⟩
    have tail := ih (fun g member => wellFormed g (List.mem_cons_of_mem f member)) fuel
      (by simpa using enough)
    have field := readField_encode f (encode rest) (wellFormed f List.mem_cons_self)
    rw [show encode (f :: rest) = f.encode ++ encode rest by simp [encode]]
    cases shape : f.encode with
    | nil => exact absurd shape f.encode_ne_nil
    | cons b more =>
      rw [shape, List.cons_append] at field
      simp only [List.cons_append, parseGo, field, tail]

theorem parse_encode (fields : List Field) (wellFormed : ∀ f ∈ fields, f.WellFormed) :
    parse (encode fields) = (fields,true) :=
  parseGo_encode fields wellFormed _ (length_le_encode fields)

/-! ## Input that is cut or joined -/

theorem parseGo_more (fuel : Nat) (input : Bytes) (enough : input.length ≤ fuel) :
    parseGo (fuel + 1) input = parseGo fuel input := by
  induction fuel generalizing input with
  | zero =>
    obtain rfl := List.length_eq_zero_iff.mp (Nat.le_zero.mp enough)
    rfl
  | succ fuel ih =>
    cases input with
    | nil => rfl
    | cons b input =>
      simp only [parseGo]
      cases read : readField (b :: input) with
      | none => rfl
      | some result =>
        obtain ⟨f,rest⟩ := result
        have shorter := encode_shortest read
        have positive := List.length_pos_iff.mpr f.encode_ne_nil
        have tail := ih rest (by simp only [List.length_cons] at enough shorter; omega)
        simp only [tail]

theorem parseGo_fuel (fuel : Nat) (input : Bytes) (enough : input.length ≤ fuel) :
    parseGo fuel input = parse input := by
  obtain ⟨extra,rfl⟩ := Nat.exists_eq_add_of_le enough
  clear enough
  induction extra with
  | zero => rfl
  | succ extra ih => rw [← Nat.add_assoc, parseGo_more _ _ (by omega), ih]

theorem parse_of_readField {input rest : Bytes} {f : Field} (read : readField input = some (f,rest)) :
    parse input = (f :: (parse rest).1,(parse rest).2) := by
  have shorter := encode_shortest read
  have positive := List.length_pos_iff.mpr f.encode_ne_nil
  cases input with
  | nil => simp only [List.length_nil] at shorter; omega
  | cons b input =>
    simp only [List.length_cons] at shorter
    rw [parse, List.length_cons, parseGo, read]
    simp only [parseGo_fuel input.length rest (by omega)]

/-- Joined messages are scanned as one. -/
theorem parse_append (fields : List Field) (wellFormed : ∀ f ∈ fields, f.WellFormed) (tail : Bytes) :
    parse (encode fields ++ tail) = (fields ++ (parse tail).1,(parse tail).2) := by
  induction fields with
  | nil => rfl
  | cons f rest ih =>
    have later := ih fun g member => wellFormed g (List.mem_cons_of_mem f member)
    have first := readField_encode f (encode rest ++ tail) (wellFormed f List.mem_cons_self)
    rw [show encode (f :: rest) ++ tail = f.encode ++ (encode rest ++ tail) by simp [encode],
      parse_of_readField first, later]
    rfl

/-- A field that is cut is malformed. -/
theorem parse_cut {f : Field} {start missing : Bytes} (wellFormed : f.WellFormed)
    (cut : f.encode = start ++ missing) (started : start ≠ []) (open_ : missing ≠ []) :
    parse start = ([],false) := by
  cases read : readField start with
  | some result =>
    exfalso
    obtain ⟨g,rest⟩ := result
    have whole := readField_append missing read
    have direct := readField_encode f [] wellFormed
    rw [List.append_nil, cut, whole] at direct
    have nothing : rest ++ missing = [] := congrArg Prod.snd (Option.some.inj direct)
    exact open_ (List.append_eq_nil_iff.mp nothing).2
  | none =>
    cases start with
    | nil => contradiction
    | cons b start => simp only [parse, List.length_cons, parseGo, read]

theorem length_of_mem_parse {f : Field} (input : Bytes) (member : f ∈ (parse input).1) :
    f.encode.length ≤ input.length := by
  induction size : input.length using Nat.strongRecOn generalizing input with
  | ind size ih =>
    cases read : readField input with
    | none =>
      cases input with
      | nil => simp [parse,parseGo] at member
      | cons b input => simp [parse,parseGo,read] at member
    | some result =>
      obtain ⟨g,rest⟩ := result
      have shorter := encode_shortest read
      have positive := List.length_pos_iff.mpr g.encode_ne_nil
      rw [parse_of_readField read] at member
      rcases List.mem_cons.mp member with rfl | later
      · omega
      · have tail := ih rest.length (by omega) rest later rfl
        omega

/-! ## Reading and writing one field

A scalar at its default value is not written; the last occurrence of a scalar
wins; a repeated field collects its occurrences. -/

def uintField (number n : Nat) : List Field := if n = 0 then [] else [⟨number,.varint n⟩]

def bytesField (number : Nat) (b : Bytes) : List Field :=
  if b = [] then [] else [⟨number,.bytes b⟩]

def repeatedBytes (number : Nat) (bs : List Bytes) : List Field := bs.map fun b => ⟨number,.bytes b⟩

/-- A packed list of integers is one field. -/
def packedField (number : Nat) (ns : List Nat) : List Field :=
  bytesField number (ns.flatMap varint)

def readPackedGo : Nat → Bytes → List Nat
  | 0, _ => []
  | fuel + 1, input =>
    match readVarint input with
    | none => []
    | some (n,rest) => n :: readPackedGo fuel rest

def readPacked (input : Bytes) : List Nat := readPackedGo input.length input

def lastUint (number : Nat) (fields : List Field) : Nat :=
  fields.foldl (fun old f => match f.value with
    | .varint n => if f.number = number then n else old
    | _ => old) 0

def lastBytes (number : Nat) (fields : List Field) : Bytes :=
  fields.foldl (fun old f => match f.value with
    | .bytes b => if f.number = number then b else old
    | _ => old) []

def collectBytes (number : Nat) (fields : List Field) : List Bytes :=
  fields.filterMap fun f => match f.value with
    | .bytes b => if f.number = number then some b else none
    | _ => none

/-- Both the packed and the plain form of a repeated integer are read. -/
def collectUints (number : Nat) (fields : List Field) : List Nat :=
  fields.flatMap fun f => if f.number = number then
      match f.value with
      | .varint n => [n]
      | .bytes b => readPacked b
      | _ => []
    else []

theorem readPackedGo_flatMap (ns : List Nat) (fuel : Nat) (enough : ns.length ≤ fuel) :
    readPackedGo fuel (ns.flatMap varint) = ns := by
  induction ns generalizing fuel with
  | nil => cases fuel <;> rfl
  | cons n rest ih =>
    obtain ⟨fuel,rfl⟩ : ∃ k, fuel = k + 1 := ⟨fuel - 1, by simp at enough; omega⟩
    rw [List.flatMap_cons, readPackedGo, readVarint_varint]
    simpa using ih fuel (by simpa using enough)

theorem readPacked_flatMap (ns : List Nat) : readPacked (ns.flatMap varint) = ns := by
  apply readPackedGo_flatMap
  induction ns with
  | nil => simp
  | cons n rest ih =>
    have positive := List.length_pos_iff.mpr (varint_ne_nil n)
    simp only [List.flatMap_cons, List.length_cons, List.length_append]
    omega

end Wire

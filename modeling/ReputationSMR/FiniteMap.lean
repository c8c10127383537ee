import Mathlib.Data.Finmap
import Mathlib.Data.Finset.Sort
import Mathlib.Data.Rat.Defs
import Mathlib.Algebra.Order.Field.Basic
import Mathlib.Algebra.Order.BigOperators.Group.Finset
import Mathlib.Tactic.Linarith

/-! Finite maps as a program sees them: lookup, overwrite, length, maps of maps,
sums over the entries, and traversal in an order the program does not control.
Mathlib's `Finmap` is the representation, so two maps with the same lookups are
equal and no traversal order is stored. -/
namespace FiniteMap

abbrev Map (α β : Type) := Finmap fun _ : α => β

variable {α β γ : Type} [DecidableEq α]

theorem lookup_insert (m : Map α γ) (a b : α) (c : γ) :
    (m.insert a c).lookup b = if b = a then some c else m.lookup b := by
  split
  next same => subst same; exact Finmap.lookup_insert m
  next other => exact Finmap.lookup_insert_of_ne m other

@[simp] theorem keys_insert (m : Map α γ) (a : α) (c : γ) :
    (m.insert a c).keys = insert a m.keys := by
  ext b
  simp only [Finmap.mem_keys, Finmap.mem_insert, Finset.mem_insert]

theorem mem_keys_iff (m : Map α γ) (a : α) : a ∈ m.keys ↔ ∃ c, m.lookup a = some c := by
  rw [Finmap.mem_keys, Finmap.mem_iff]

/-- `len(m)`. -/
def size (m : Map α γ) : Nat := m.keys.card

omit [DecidableEq α] in
@[simp] theorem size_empty : size (∅ : Map α γ) = 0 := rfl

/-- `for a in ids { m[a] = f(a) }`. -/
def fill (f : α → γ) (ids : List α) (m : Map α γ) : Map α γ := ids.foldl (fun m a => m.insert a (f a)) m

theorem lookup_fill (f : α → γ) (ids : List α) (m : Map α γ) (a : α) :
    (fill f ids m).lookup a = if a ∈ ids then some (f a) else m.lookup a := by
  induction ids generalizing m with
  | nil => simp [fill]
  | cons b rest ih =>
    have tail := ih (m.insert b (f b))
    simp only [fill, List.foldl_cons] at tail ⊢
    rw [tail, lookup_insert]
    by_cases later : a ∈ rest
    · simp [later]
    · by_cases same : a = b <;> simp [later,same]

/-! ## Maps of maps -/

/-- `m[a][b]`, absent when either index is. -/
def at2 [DecidableEq β] (m : Map α (Map β γ)) (a : α) (b : β) : Option γ := (m.lookup a).bind (·.lookup b)

/-- `m[a]`, the empty map when the index is absent. -/
def row (m : Map α (Map β γ)) (a : α) : Map β γ := (m.lookup a).getD ∅

/-- `m[a][b] = c`, creating the inner map when it is missing. -/
def put2 [DecidableEq β] (m : Map α (Map β γ)) (a : α) (b : β) (c : γ) : Map α (Map β γ) :=
  m.insert a ((row m a).insert b c)

theorem at2_eq_row [DecidableEq β] (m : Map α (Map β γ)) (a : α) (b : β) : at2 m a b = (row m a).lookup b := by
  unfold at2 row
  cases m.lookup a with
  | none => rfl
  | some inner => rfl

@[simp] theorem row_empty (a : α) : row (∅ : Map α (Map β γ)) a = ∅ := rfl

theorem row_insert (m : Map α (Map β γ)) (a a' : α) (inner : Map β γ) :
    row (m.insert a inner) a' = if a' = a then inner else row m a' := by
  unfold row
  rw [lookup_insert]
  split <;> rfl

/-- Rows with the same entries are the same, if no row is empty. -/
theorem lookup_ext [DecidableEq β] {m m' : Map α (Map β γ)} {a : α} (entries : ∀ b, at2 m a b = at2 m' a b)
    (filled : ∀ inner, m.lookup a = some inner → ∃ b, b ∈ inner)
    (filled' : ∀ inner, m'.lookup a = some inner → ∃ b, b ∈ inner) : m.lookup a = m'.lookup a := by
  unfold at2 at entries
  cases left : m.lookup a with
  | none =>
    cases right : m'.lookup a with
    | none => rfl
    | some inner =>
      obtain ⟨b,member⟩ := filled' inner right
      have entry := entries b
      rw [left, right] at entry
      exact absurd member (Finmap.lookup_eq_none.mp entry.symm)
  | some inner =>
    cases right : m'.lookup a with
    | none =>
      obtain ⟨b,member⟩ := filled inner left
      have entry := entries b
      rw [left, right] at entry
      exact absurd member (Finmap.lookup_eq_none.mp entry)
    | some inner' =>
      refine congrArg some (Finmap.ext_lookup fun b => ?_)
      have entry := entries b
      rwa [left, right] at entry

theorem at2_insert [DecidableEq β] (m : Map α (Map β γ)) (a a' : α) (b : β) (inner : Map β γ) :
    at2 (m.insert a inner) a' b = if a' = a then inner.lookup b else at2 m a' b := by
  rw [at2_eq_row, row_insert]
  split
  next => rfl
  next => exact (at2_eq_row m a' b).symm

theorem at2_put2 [DecidableEq β] (m : Map α (Map β γ)) (a a' : α) (b b' : β) (c : γ) :
    at2 (put2 m a b c) a' b' = if a' = a ∧ b' = b then some c else at2 m a' b' := by
  rw [put2, at2_insert, lookup_insert]
  by_cases outer : a' = a
  · subst outer
    by_cases inner : b' = b
    · simp [inner]
    · simp [inner, at2_eq_row]
  · simp [outer]

theorem insert_eq_self {m : Map α γ} {a : α} {c : γ} (present : m.lookup a = some c) : m.insert a c = m := by
  apply Finmap.ext_lookup
  intro b
  rw [lookup_insert]
  split
  next same => rw [same, present]
  next => rfl

theorem put2_eq_self [DecidableEq β] {m : Map α (Map β γ)} {a : α} {b : β} {c : γ} (present : at2 m a b = some c) :
    put2 m a b c = m := by
  obtain ⟨inner,found,entry⟩ := Option.bind_eq_some_iff.mp present
  rw [put2, row, found, Option.getD_some, insert_eq_self entry, insert_eq_self found]

theorem foldl_put2 [DecidableEq β] (f : β → γ) (a : α) (b : β) (ids : List β) (m : Map α (Map β γ)) :
    (b :: ids).foldl (fun m b => put2 m a b (f b)) m = m.insert a (fill f (b :: ids) (row m a)) := by
  induction ids generalizing m b with
  | nil => rfl
  | cons c rest ih =>
    rw [List.foldl_cons, ih, put2, Finmap.insert_insert, row_insert, if_pos rfl]
    rfl

/-! ## Traversal

A traversal visits every key once, in an order chosen by the environment. The
choice is an argument; one that is not an enumeration of the keys is ignored. -/

def Enumerates (order : List Nat) (m : Map Nat γ) : Prop := order.Nodup ∧ order.toFinset = m.keys

instance (order : List Nat) (m : Map Nat γ) : Decidable (Enumerates order m) :=
  inferInstanceAs (Decidable (_ ∧ _))

def traversal (m : Map Nat γ) (order : List Nat) : List Nat :=
  if Enumerates order m then order else m.keys.sort

theorem traversal_enumerates (m : Map Nat γ) (order : List Nat) :
    Enumerates (traversal m order) m := by
  unfold traversal
  split
  next chosen => exact chosen
  next => exact ⟨Finset.sort_nodup _ _, Finset.sort_toFinset _ _⟩

theorem mem_traversal (m : Map Nat γ) (order : List Nat) (k : Nat) :
    k ∈ traversal m order ↔ k ∈ m.keys := by
  rw [← (traversal_enumerates m order).2, List.mem_toFinset]

/-! ## Sums over the entries -/

/-- The sum of the entries of `w` at the given keys; a missing entry adds nothing. -/
def sumAt (w : Map α ℚ) (keys : Finset α) : ℚ := ∑ k ∈ keys, (w.lookup k).getD 0

/-- The sum of all entries. -/
def total (w : Map α ℚ) : ℚ := sumAt w w.keys

theorem total_pos (w : Map α ℚ) (inhabited : w.keys.Nonempty)
    (positive : ∀ k x, w.lookup k = some x → 0 < x) : 0 < total w := by
  apply Finset.sum_pos _ inhabited
  intro k member
  obtain ⟨x,found⟩ := (mem_keys_iff w k).mp member
  simpa [found] using positive k x found

end FiniteMap

/-! ## Weighted majorities -/
namespace WeightedQuorum

variable {ι K : Type} [DecidableEq ι] [Field K] [LinearOrder K] [IsStrictOrderedRing K]

/-- Two sets that each hold more than half of a nonnegative weight have a common member. -/
theorem majorities_meet (w : ι → K) (everyone a b : Finset ι) (withinA : a ⊆ everyone)
    (withinB : b ⊆ everyone) (nonneg : ∀ i ∈ everyone, 0 ≤ w i)
    (majorA : (∑ i ∈ everyone, w i) / 2 < ∑ i ∈ a, w i)
    (majorB : (∑ i ∈ everyone, w i) / 2 < ∑ i ∈ b, w i) : (a ∩ b).Nonempty := by
  by_contra empty
  have apart : Disjoint a b := by
    rw [Finset.disjoint_iff_inter_eq_empty]
    exact Finset.not_nonempty_iff_eq_empty.mp empty
  have together : ∑ i ∈ a, w i + ∑ i ∈ b, w i ≤ ∑ i ∈ everyone, w i := by
    rw [← Finset.sum_union apart]
    apply Finset.sum_le_sum_of_subset_of_nonneg (Finset.union_subset withinA withinB)
    intro i member _
    exact nonneg i member
  linarith

end WeightedQuorum

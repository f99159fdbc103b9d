import Mathlib.Data.Prod.Lex
import Mathlib.Order.Compare
/-!
# Views, and the order on them

`consensus/types.rs`. A `View` is a height and a round. Its `PartialEq`
compares both fields; its `PartialOrd` compares heights and, on a tie,
rounds, with an `unreachable!()` arm for a height comparison that returns
`None`. The comparison operators are the trait's provided methods, each a
`matches!` on `partial_cmp`.

`u64::partial_cmp` is always `Some`, so the arm is never reached, and the
four operators are those of the lexicographic order on
`(height, round)` (`partialCmp_eq`, `le_eq`, ...): the order every law of
`view_cmp_total_order` is read from.
-/

namespace ConsensusRs

/-- `Height`. -/
abbrev Height := UInt64

/-- `Round`. -/
abbrev Round := UInt64

theorem uint64_compare_eq_toNat (a b : UInt64) : compare a b = compare a.toNat b.toNat := by
  have hlt : a < b ↔ a.toNat < b.toNat := by rw [UInt64.lt_def, BitVec.lt_def]; rfl
  have heq : a = b ↔ a.toNat = b.toNat :=
    ⟨congrArg _, fun h => UInt64.eq_of_toBitVec_eq (BitVec.eq_of_toNat_eq h)⟩
  simp only [compare, compareOfLessAndEq, hlt, heq]

/-- `View`. -/
structure View where
  round : Round
  height : Height
  deriving DecidableEq, Repr

namespace View

/-- `View::new`. -/
def new (height : Height) (round : Round) : View :=
  { height, round }

/-- `PartialEq::eq`. -/
def eq (self other : View) : Bool :=
  self.height == other.height && self.round == other.round

/-- `u64::partial_cmp`. -/
def partialCmpU64 (a b : UInt64) : Option Ordering :=
  some (compare a b)

/-- `PartialOrd::partial_cmp`. The outer `none` is the `unreachable!()` arm. -/
def partialCmp (self other : View) : Option (Option Ordering) :=
  match partialCmpU64 self.height other.height with
  | some .eq => some (partialCmpU64 self.round other.round)
  | some order => some (some order)
  | none => none

/-- `PartialOrd::lt`: `matches!(self.partial_cmp(other), Some(Less))`. -/
def lt (self other : View) : Option Bool :=
  (partialCmp self other).map fun o => o == some .lt

/-- `PartialOrd::le`: `matches!(self.partial_cmp(other), Some(Less | Equal))`. -/
def le (self other : View) : Option Bool :=
  (partialCmp self other).map fun o => o == some .lt || o == some .eq

/-- `PartialOrd::gt`: `matches!(self.partial_cmp(other), Some(Greater))`. -/
def gt (self other : View) : Option Bool :=
  (partialCmp self other).map fun o => o == some .gt

/-- `PartialOrd::ge`: `matches!(self.partial_cmp(other), Some(Greater | Equal))`. -/
def ge (self other : View) : Option Bool :=
  (partialCmp self other).map fun o => o == some .gt || o == some .eq

/-! ## The lexicographic order the operators implement -/

/-- A view's place in the lexicographic order on `(height, round)`. -/
def key (v : View) : ℕ ×ₗ ℕ :=
  toLex (v.height.toNat, v.round.toNat)

theorem key_injective : Function.Injective key := by
  intro a b h
  simp only [key, toLex_inj, Prod.mk.injEq] at h
  obtain ⟨r, hh⟩ := a
  obtain ⟨r', hh'⟩ := b
  simp only [mk.injEq]
  exact ⟨UInt64.eq_of_toBitVec_eq (BitVec.eq_of_toNat_eq h.2),
    UInt64.eq_of_toBitVec_eq (BitVec.eq_of_toNat_eq h.1)⟩

/-- **`partial_cmp` never reaches `unreachable!()`**, and compares
lexicographically. -/
theorem partialCmp_eq (a b : View) : a.partialCmp b = some (some (compare a.key b.key)) := by
  simp only [partialCmp, partialCmpU64, key, Prod.Lex.compare_def, compareLex, compareOn,
    ofLex_toLex, uint64_compare_eq_toNat]
  cases compare a.height.toNat b.height.toNat <;> rfl

theorem eq_iff (a b : View) : a.eq b = true ↔ a.key = b.key := by
  rw [key_injective.eq_iff]
  obtain ⟨r, h⟩ := a
  obtain ⟨r', h'⟩ := b
  simp [eq, and_comm]

theorem lt_eq (a b : View) : a.lt b = some (decide (a.key < b.key)) := by
  rw [lt, partialCmp_eq, Option.map_some']
  simp only [← compare_lt_iff_lt]
  cases compare a.key b.key <;> decide

theorem le_eq (a b : View) : a.le b = some (decide (a.key ≤ b.key)) := by
  rw [le, partialCmp_eq, Option.map_some']
  simp only [← compare_le_iff_le]
  cases compare a.key b.key <;> decide

theorem gt_eq (a b : View) : a.gt b = some (decide (b.key < a.key)) := by
  rw [gt, partialCmp_eq, Option.map_some']
  simp only [← gt_iff_lt, ← compare_gt_iff_gt]
  cases compare a.key b.key <;> decide

theorem ge_eq (a b : View) : a.ge b = some (decide (b.key ≤ a.key)) := by
  rw [ge, partialCmp_eq, Option.map_some']
  simp only [← not_lt, ← compare_lt_iff_lt]
  cases compare a.key b.key <;> decide

/-- **The view order is total and agrees with `==`.** `partial_cmp` is
`Some` of the lexicographic comparison of `(height, round)`, and
`Some(Equal)` exactly when `eq`; `<=` is reflexive, antisymmetric up to
`eq`, transitive and total; `<` is `<=` without `eq`; `>` and `>=` are `<`
and `<=` with the arguments swapped. -/
theorem view_cmp_total_order :
    (∀ a b : View, a.partialCmp b = some (some (compare a.key b.key))) ∧
    (∀ a b : View, a.partialCmp b = some (some .eq) ↔ a.eq b = true) ∧
    (∀ a : View, a.le a = some true) ∧
    (∀ a b : View, a.le b = some true → b.le a = some true → a.eq b = true) ∧
    (∀ a b c : View, a.le b = some true → b.le c = some true → a.le c = some true) ∧
    (∀ a b : View, a.le b = some true ∨ b.le a = some true) ∧
    (∀ a b : View, a.lt b = some true ↔ a.le b = some true ∧ a.eq b = false) ∧
    (∀ a b : View, a.gt b = b.lt a ∧ a.ge b = b.le a) := by
  simp only [partialCmp_eq, lt_eq, le_eq, gt_eq, ge_eq, Option.some.injEq, decide_eq_true_eq,
    ← Bool.not_eq_true, eq_iff, compare_eq_iff_eq]
  exact ⟨fun _ _ => trivial, fun _ _ => trivial, fun _ => le_rfl, fun _ _ => le_antisymm,
    fun _ _ _ => le_trans, fun _ _ => le_total _ _, fun _ _ => lt_iff_le_and_ne,
    fun _ _ => ⟨trivial, trivial⟩⟩

end View

end ConsensusRs

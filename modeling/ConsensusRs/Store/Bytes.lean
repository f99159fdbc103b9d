import Mathlib.Data.List.Lex
import Mathlib.Data.List.Sort
/-!
# Byte strings and the order a byte-keyed store keeps them in

RocksDB's default comparator orders keys bytewise, a proper prefix first:
the lexicographic order on `List UInt8`. This file gives `UInt8` its linear
order (core has the lemmas but not the instance), so that `Bytes` inherits
Mathlib's lexicographic `LinearOrder`, and proves the one fact about that
order the store's iterators rest on: the keys sharing a prefix form one
contiguous block (`isPrefix_of_le_of_le`).
-/

namespace ConsensusRs

/-- Bytes compare as unsigned numbers. -/
instance instLinearOrderUInt8 : LinearOrder UInt8 where
  le_refl := UInt8.le_refl
  le_trans _ _ _ := UInt8.le_trans
  le_antisymm _ _ h₁ h₂ := UInt8.eq_of_toBitVec_eq (BitVec.le_antisymm h₁ h₂)
  le_total := UInt8.le_total
  lt_iff_le_not_le a b := by
    rw [UInt8.not_le]
    exact ⟨fun h => ⟨(UInt8.le_total a b).resolve_right fun h' => UInt8.not_lt.2 h' h, h⟩,
      fun h => h.2⟩
  decidableLE := inferInstance
  decidableLT := inferInstance

/-- A Rust `Vec<u8>` or `&[u8]`. -/
abbrev Bytes := List UInt8

namespace Bytes

variable {x y : UInt8} {p a b c : Bytes}

theorem cons_lt_cons_iff : x :: a < y :: b ↔ x < y ∨ x = y ∧ a < b := by
  constructor
  · rintro (_ | ⟨h⟩ | ⟨h⟩)
    · exact .inr ⟨rfl, h⟩
    · exact .inl h
  · rintro (h | ⟨rfl, h⟩)
    · exact List.Lex.rel h
    · exact List.Lex.cons h

theorem cons_le_cons_iff : x :: a ≤ y :: b ↔ x < y ∨ x = y ∧ a ≤ b := by
  simp only [le_iff_lt_or_eq, cons_lt_cons_iff, List.cons.injEq]
  constructor
  · rintro ((h | ⟨rfl, h⟩) | ⟨rfl, rfl⟩)
    exacts [.inl h, .inr ⟨rfl, .inl h⟩, .inr ⟨rfl, .inr rfl⟩]
  · rintro (h | ⟨rfl, h | rfl⟩)
    exacts [.inl (.inl h), .inl (.inr ⟨rfl, h⟩), .inr ⟨rfl, rfl⟩]

@[simp] theorem not_cons_le_nil : ¬ x :: a ≤ [] := by
  rw [le_iff_lt_or_eq]
  rintro (h | h)
  · exact List.Lex.not_nil_right _ _ h
  · cases h

/-- A common prefix does not change how two byte strings compare. -/
@[simp] theorem append_lt_append_iff : p ++ a < p ++ b ↔ a < b := by
  induction p with
  | nil => rfl
  | cons x p ih => simp [cons_lt_cons_iff, ih]

@[simp] theorem append_le_append_iff : p ++ a ≤ p ++ b ↔ a ≤ b := by
  simp only [le_iff_lt_or_eq, append_lt_append_iff, List.append_cancel_left_eq]

/-- A prefix sorts first. -/
theorem le_of_isPrefix (h : p <+: a) : p ≤ a := by
  obtain ⟨s, rfl⟩ := h
  rcases s with _ | ⟨z, s⟩
  · simp
  · have h : p ++ [] < p ++ z :: s := append_lt_append_iff.2 (List.nil_lt_cons z s)
    simpa using h.le

/-- A byte string sorting before `b` without beginning it decides the
comparison at a byte of its own, so whatever follows it sorts before `b`
too. -/
theorem append_lt_of_lt (hab : a < b) (hp : ¬ a <+: b) (w : Bytes) : a ++ w < b := by
  induction a generalizing b with
  | nil => exact absurd List.nil_prefix hp
  | cons x a ih =>
    rcases b with _ | ⟨y, b⟩
    · exact absurd hab.le not_cons_le_nil
    rcases cons_lt_cons_iff.1 hab with hxy | ⟨rfl, hab'⟩
    · exact cons_lt_cons_iff.2 (.inl hxy)
    · exact cons_lt_cons_iff.2 (.inr ⟨rfl, ih hab' (fun h => hp (List.cons_prefix_cons.2 ⟨rfl, h⟩))⟩)

/-- **Keys sharing a prefix are contiguous.** Whatever sorts between two
byte strings beginning with `p` begins with `p` too. -/
theorem isPrefix_of_le_of_le (ha : p <+: a) (hc : p <+: c) (hab : a ≤ b) (hbc : b ≤ c) :
    p <+: b := by
  induction p generalizing a b c with
  | nil => exact List.nil_prefix
  | cons x p ih =>
    obtain ⟨a, rfl, ha'⟩ : ∃ a', a = x :: a' ∧ p <+: a' := by
      rcases a with _ | ⟨x', a'⟩
      · exact absurd ha (by simp)
      · exact ⟨a', by rw [(List.cons_prefix_cons.1 ha).1], (List.cons_prefix_cons.1 ha).2⟩
    obtain ⟨c, rfl, hc'⟩ : ∃ c', c = x :: c' ∧ p <+: c' := by
      rcases c with _ | ⟨x', c'⟩
      · exact absurd hc (by simp)
      · exact ⟨c', by rw [(List.cons_prefix_cons.1 hc).1], (List.cons_prefix_cons.1 hc).2⟩
    rcases b with _ | ⟨y, b⟩
    · exact absurd hab not_cons_le_nil
    rcases cons_le_cons_iff.1 hab with hxy | ⟨rfl, hab'⟩
    · rcases cons_le_cons_iff.1 hbc with hyx | ⟨rfl, -⟩
      · exact absurd (hxy.trans hyx) (lt_irrefl x)
      · exact absurd hxy (lt_irrefl y)
    · rcases cons_le_cons_iff.1 hbc with hyx | ⟨-, hbc'⟩
      · exact absurd hyx (lt_irrefl x)
      · exact List.cons_prefix_cons.2 ⟨rfl, ih ha' hc' hab' hbc'⟩

end Bytes

end ConsensusRs

import Backtrack.Text.Basic

/-!
How often a repetition may iterate. Bounds are read from a range of 64-bit counts whose ends are
included, excluded or missing. A range that admits no count is refused.
-/

namespace Backtrack

inductive Endpoint where
  | unbounded
  | included (count : UInt64)
  | excluded (count : UInt64)
  deriving DecidableEq

structure Bounds where
  min : Nat
  max : Option Nat
  deriving DecidableEq

/-- Why a grammar cannot be built: the range `lower..upper`, without `upper`, is empty. -/
inductive GrammarError where
  | invalidRepetition (lower upper : Nat)
  deriving DecidableEq

namespace GrammarError

def message : GrammarError → Text
  | invalidRepetition lower upper =>
    "Invalid repetition: range ".toList ++ Text.ofNat lower ++ "..".toList ++ Text.ofNat upper ++
      " admits no count".toList

end GrammarError

namespace Bounds

def maxCount : Nat := UInt64.size - 1

def Admits (b : Bounds) (n : Nat) : Prop := b.min ≤ n ∧ ∀ m ∈ b.max, n ≤ m

instance (b : Bounds) (n : Nat) : Decidable (b.Admits n) := by
  unfold Admits
  cases b.max <;> simp <;> infer_instance

/-- The least count above the start of a range. Above the greatest count there is no other, so an
excluded greatest count stands for itself. -/
def lower : Endpoint → Nat
  | .unbounded => 0
  | .included n => n.toNat
  | .excluded n => Nat.min (n.toNat + 1) maxCount

/-- The first count past the end of a range. An end that includes the greatest count excludes
nothing. -/
def upper : Endpoint → Option Nat
  | .unbounded => none
  | .included n => if n.toNat = maxCount then none else some (n.toNat + 1)
  | .excluded n => some n.toNat

def ofRange (first last : Endpoint) : Except GrammarError Bounds :=
  match upper last with
  | none => .ok ⟨lower first, none⟩
  | some limit =>
    if limit ≤ lower first then .error (.invalidRepetition (lower first) limit)
    else .ok ⟨lower first, some (limit - 1)⟩

def atLeast (n : Nat) : Bounds := ⟨n, none⟩

/-- Exactly `n` iterations, or at least `n` if `n` is the greatest count. -/
def exactly (n : UInt64) : Bounds :=
  ⟨n.toNat, if n.toNat = maxCount then none else some n.toNat⟩

theorem ofRange_included_self (n : UInt64) :
    ofRange (.included n) (.included n) = .ok (exactly n) := by
  have hlt : ¬n.toNat + 1 ≤ n.toNat := by omega
  by_cases h : n.toNat = maxCount
  · simp [ofRange, exactly, upper, lower, h]
  · simp [ofRange, exactly, upper, lower, h, hlt]

end Bounds

end Backtrack

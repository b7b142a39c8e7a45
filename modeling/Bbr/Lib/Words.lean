import Mathlib.Data.Nat.Basic
import Mathlib.Algebra.Group.Int.Defs
import Mathlib.Algebra.Group.Nat.Defs

/-!
# Machine words

Unsigned words of some bits are natural numbers. An operation that would leave their range answers
`none`, a saturating one stays at the edge.
-/
namespace Bbr.Lib.Word

def add? (bits a b : Nat) : Option Nat := if a + b < 2 ^ bits then some (a + b) else none

def sub? (a b : Nat) : Option Nat := if b ≤ a then some (a - b) else none

/-- Of a signed word, whose least value has no opposite. -/
def neg? (bits : Nat) (a : Int) : Option Int := if -2 ^ (bits - 1) < a then some (-a) else none

def natCast? (bits : Nat) (a : Int) : Option Nat :=
  if 0 ≤ a ∧ a < 2 ^ bits then some a.toNat else none

def satAdd (bits a b : Nat) : Nat := min (a + b) (2 ^ bits - 1)

def satMul (bits a b : Nat) : Nat := min (a * b) (2 ^ bits - 1)

variable {bits a b : Nat}

theorem add?_some (h : a + b < 2 ^ bits) : add? bits a b = some (a + b) := by
  simp [add?, h]

theorem sub?_some (h : b ≤ a) : sub? a b = some (a - b) := by
  simp [sub?, h]

theorem satAdd_eq (h : a + b < 2 ^ bits) : satAdd bits a b = a + b := by
  simp only [satAdd]
  omega

theorem satAdd_le {c : Nat} (h : c < 2 ^ bits - 1) : satAdd bits a b ≤ c ↔ a + b ≤ c := by
  simp only [satAdd]
  omega

theorem satAdd_lt : satAdd bits a b < 2 ^ bits := by
  have := Nat.two_pow_pos bits
  simp only [satAdd]
  omega

/-- The least value aside, the opposite of a negative word is a word. -/
theorem neg?_natCast? {a : Int} (hleast : -2 ^ (bits - 1) < a) (hneg : a < 0) (hbits : 0 < bits) :
    (neg? bits a).bind (natCast? bits) = some (-a).toNat := by
  have hpow : (2 : Int) ^ (bits - 1) < 2 ^ bits := by
    have := Nat.pow_lt_pow_right (a := 2) (by decide) (Nat.sub_lt hbits Nat.one_pos)
    exact_mod_cast this
  rw [neg?, if_pos hleast, Option.bind_some, natCast?, if_pos ⟨by omega, by omega⟩]

theorem neg?_least : neg? bits (-2 ^ (bits - 1)) = none := by
  simp [neg?]

end Bbr.Lib.Word

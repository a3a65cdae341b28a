import Mathlib.Algebra.Ring.Nat
import Mathlib.Logic.Function.Basic

namespace OcamlRpi.Support

/-- Byte-addressed memory. -/
abbrev Mem := ℕ → UInt8

namespace Mem

/-- The little-endian 32-bit word at address `a`. -/
def load (m : Mem) (a : ℕ) : ℕ :=
  (m a).toNat + 256 * (m (a + 1)).toNat + 65536 * (m (a + 2)).toNat +
    16777216 * (m (a + 3)).toNat

/-- Write the low 32 bits of `v` at address `a`, low byte first. -/
def store (m : Mem) (a v : ℕ) : Mem := fun x ↦
  if x = a then UInt8.ofNat v
  else if x = a + 1 then UInt8.ofNat (v / 256)
  else if x = a + 2 then UInt8.ofNat (v / 65536)
  else if x = a + 3 then UInt8.ofNat (v / 16777216)
  else m x

variable {m m' : Mem} {a b v x : ℕ}

theorem store_of_apart (h : x < a ∨ a + 4 ≤ x) : m.store a v x = m x := by
  simp only [store]
  rw [if_neg (by omega), if_neg (by omega), if_neg (by omega), if_neg (by omega)]

theorem load_congr (h : ∀ x, a ≤ x → x < a + 4 → m' x = m x) : m'.load a = m.load a := by
  simp only [load]
  rw [h a (by omega) (by omega), h (a + 1) (by omega) (by omega),
    h (a + 2) (by omega) (by omega), h (a + 3) (by omega) (by omega)]

theorem load_store_self (h : v < 2 ^ 32) : (m.store a v).load a = v := by
  have h₁ : a + 1 ≠ a := by omega
  have h₂ : a + 2 ≠ a := by omega
  have h₂' : a + 2 ≠ a + 1 := by omega
  have h₃ : a + 3 ≠ a := by omega
  have h₃' : a + 3 ≠ a + 1 := by omega
  have h₃'' : a + 3 ≠ a + 2 := by omega
  simp only [load, store, if_true, if_neg h₁, if_neg h₂, if_neg h₂', if_neg h₃, if_neg h₃',
    if_neg h₃'', UInt8.toNat_ofNat']
  omega

theorem load_store_apart (h : a + 4 ≤ b ∨ b + 4 ≤ a) : (m.store a v).load b = m.load b :=
  load_congr fun _ _ _ ↦ store_of_apart (by omega)

end Mem

end OcamlRpi.Support

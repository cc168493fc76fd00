/-!
# Hexadecimal digits

* `Hex.value?`              reads a digit of either case;
* `Hex.upper`, `Hex.lower`  write a number below sixteen as one digit;
* `value?_upper`, `value?_lower`   what is written reads back.
-/

namespace PropertyIndex.Text.Hex

/-- the value of a hexadecimal digit of either case -/
def value? (c : Char) : Option Nat :=
  if '0' ≤ c ∧ c ≤ '9' then some (c.toNat - 48)
  else if 'a' ≤ c ∧ c ≤ 'f' then some (c.toNat - 87)
  else if 'A' ≤ c ∧ c ≤ 'F' then some (c.toNat - 55)
  else none

def upper (n : Nat) : Char := Char.ofNat (if n < 10 then 48 + n else 55 + n)

def lower (n : Nat) : Char := Char.ofNat (if n < 10 then 48 + n else 87 + n)

theorem value?_upper {n : Nat} (h : n < 16) : value? (upper n) = some n := by
  have e : ∀ m : Fin 16, value? (upper m.1) = some m.1 := by decide
  exact e ⟨n, h⟩

theorem value?_lower {n : Nat} (h : n < 16) : value? (lower n) = some n := by
  have e : ∀ m : Fin 16, value? (lower m.1) = some m.1 := by decide
  exact e ⟨n, h⟩

end PropertyIndex.Text.Hex

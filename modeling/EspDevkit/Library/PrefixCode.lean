import Mathlib.Data.List.Basic

/-!
# Prefix codes

A way to write values so that they are read back one after another, whatever follows, and so that
nothing else is read as one of them.
-/

/-- Reading takes a value off the front, and only what writing puts there. -/
structure PrefixCode (α : Type) (β : Type) (ε : Type) where
  /-- The values that can be written. -/
  Writable : α → Prop
  write : α → List β
  read : List β → Except ε (α × List β)
  read_write : ∀ {value : α}, Writable value → ∀ rest : List β,
    read (write value ++ rest) = .ok (value, rest)
  of_read : ∀ {input rest : List β} {value : α}, read input = .ok (value, rest) →
    Writable value ∧ input = write value ++ rest

namespace PrefixCode

variable {α β ε : Type} (code : PrefixCode α β ε)

theorem suffix_of_read {input rest : List β} {value : α}
    (read : code.read input = .ok (value, rest)) : rest <:+ input :=
  ⟨code.write value, (code.of_read read).2.symm⟩

end PrefixCode

import Mathlib.Algebra.GroupWithZero.Nat
import Mathlib.Data.Nat.Cast.Defs

/-!
# Numerals

The digits of field elements and of positions ask for an instance each time they are written. These
have names, so that a definition mentions the same one wherever it is elaborated.
-/

namespace Qnero

instance (priority := 2000) neZero_two : NeZero 2 := ⟨by decide⟩

instance (priority := 2000) neZero_four : NeZero 4 := ⟨by decide⟩

instance (priority := 2000) atLeastTwo_two : Nat.AtLeastTwo 2 := ⟨by decide⟩

instance (priority := 2000) atLeastTwo_three : Nat.AtLeastTwo 3 := ⟨by decide⟩

instance (priority := 2000) atLeastTwo_four : Nat.AtLeastTwo 4 := ⟨by decide⟩

instance (priority := 2000) atLeastTwo_five : Nat.AtLeastTwo 5 := ⟨by decide⟩

instance (priority := 2000) atLeastTwo_six : Nat.AtLeastTwo 6 := ⟨by decide⟩

instance (priority := 2000) atLeastTwo_seven : Nat.AtLeastTwo 7 := ⟨by decide⟩

instance (priority := 2000) atLeastTwo_eight : Nat.AtLeastTwo 8 := ⟨by decide⟩

instance (priority := 2000) atLeastTwo_nine : Nat.AtLeastTwo 9 := ⟨by decide⟩

instance (priority := 2000) atLeastTwo_ten : Nat.AtLeastTwo 10 := ⟨by decide⟩

end Qnero

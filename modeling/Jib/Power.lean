/-!
# Powers of numbers

A definition that raises a number to a power opens this scope, and then means repeated
multiplication, whatever other powers are known where it stands.
-/

namespace Jib.Power

scoped instance (priority := 2000) nat : Pow Nat Nat := ⟨Nat.pow⟩

scoped instance (priority := 2000) int : Pow Int Nat := ⟨Int.pow⟩

end Jib.Power

/-
# Powers of two and ten

The powers that number formats are made of.
-/

namespace OpenApiClient
namespace Decimal

/-- The power of two with an exponent. -/
def twoPow (k : Nat) : Nat := Nat.pow 2 k

/-- The power of ten with an exponent. -/
def tenPow (k : Nat) : Nat := Nat.pow 10 k

end Decimal
end OpenApiClient

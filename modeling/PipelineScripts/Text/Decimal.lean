/-!
# Decimal numbers
-/
namespace PipelineScripts.Text

/-- The decimal digits of a number, without leading zeros. -/
def decimal (n : Nat) : String := String.ofList (Nat.toDigits 10 n)

/-- The bound of a 64-bit word. -/
def wordSize : Nat := 0x10000000000000000

end PipelineScripts.Text

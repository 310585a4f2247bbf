/-! Sizes: offsets in a source, and the numbers written in one, are words of 64 bits. -/

namespace GrammarFrontend

/-- Two to the power of 64; every size is below it. -/
def sizeBound : Nat := 18446744073709551616

end GrammarFrontend

/-!
The fixed bounds of the system, shared by the modules that check them and by the messages that
name them.
-/

namespace GatedPipeline

/-- The most stages a record can carry timestamps for. -/
def maxStages : Nat := 62

/-- The highest paced rate, in records per second: one record each nanosecond. -/
def maxThroughput : Nat := 1000000000

/-- Core numbers from here on cannot be pinned. -/
def maxCore : Nat := 1024

/-- Counts, sizes and clock readings are below this bound. -/
def wordLimit : Nat := 18446744073709551616

/-- Signed words are below this bound, and not below its negation. -/
def signedLimit : Int := 9223372036854775808

def second : Nat := 1000000000

end GatedPipeline

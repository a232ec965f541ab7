import FlowAssembly.Json.Basic

/-!
# Durations

Timeouts, delays and periods, in whole milliseconds.
-/

namespace FlowAssembly

/-- A span of time. -/
structure Duration where
  milliseconds : Nat
deriving DecidableEq, Repr

namespace Duration

/-- A number of whole seconds. -/
def ofSeconds (n : Nat) : Duration :=
  ⟨1000 * n⟩

/-- Whether it is no time at all. -/
def isZero (d : Duration) : Bool :=
  d.milliseconds = 0

/-- Seconds, and the nanoseconds over. -/
def toJson (d : Duration) : Json :=
  .object [("secs", .ofNat (d.milliseconds / 1000)),
    ("nanos", .ofNat (d.milliseconds % 1000 * 1000000))]

end Duration

end FlowAssembly

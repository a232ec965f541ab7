import FlowAssembly.Duration
import FlowAssembly.Text.Blank
import FlowAssembly.Text.Numeral

/-!
# Configuration

Defaults of a flow, which the settings of an environment override. A setting
that cannot be read leaves its default in place.
-/

namespace FlowAssembly

/-- What a flow is assembled under. -/
structure Config where
  /-- What a generated flow id starts with. -/
  idStem : String := "flow"
  /-- How long a scatter-gather waits when it sets no time of its own. -/
  gatherTimeout : Duration := Duration.ofSeconds 30
  /-- Where the timeouts of a scatter-gather are reported. -/
  errorChannel : String := "errorChannel"
  /-- Whether a flow that ends on a channel of the assembler's own is refused
  instead of closed by a bridge. -/
  strictTermination : Bool := false
deriving DecidableEq, Repr

namespace Config

/-- Small letters for the ASCII capitals; other characters stay. -/
def lowered (text : List Char) : String :=
  String.ofList (text.map Char.toLower)

/-- Reads a flag: four words for each of the two values, in any case and
between blanks. -/
def flag? (text : String) : Option Bool :=
  let word := lowered (Text.trim text.toList)
  if ["1", "true", "yes", "on"].contains word then some true
  else if ["0", "false", "no", "off"].contains word then some false
  else none

/-- The defaults overridden by the settings of an environment. -/
def ofEnvironment (setting : String → Option String) : Config :=
  let base : Config := {}
  { idStem := (setting "WIREFLOW_FLOW_ID_PREFIX").getD base.idStem
    gatherTimeout :=
      (((setting "WIREFLOW_GATHER_TIMEOUT_MS").bind fun text =>
        Text.bounded? Text.limit64 text.toList).map Duration.mk).getD
          base.gatherTimeout
    errorChannel := (setting "WIREFLOW_ERROR_CHANNEL").getD base.errorChannel
    strictTermination :=
      ((setting "WIREFLOW_STRICT_TERMINATION").bind flag?).getD
        base.strictTermination }

/-- The flow id with the given serial number: the stem, a hyphen and 32 digits
in base sixteen. -/
def flowId (config : Config) (serial : Nat) : String :=
  config.idStem ++ "-" ++ String.ofList (Text.hexPadded 32 serial)

end Config

end FlowAssembly

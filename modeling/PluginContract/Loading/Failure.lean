import PluginContract.Loading.Payload

/-! # Failures of loading strategies -/

namespace PluginContract.Loading

/-- Why a strategy produced no exports. -/
inductive StrategyFailure
  | notStarted (binary detail : String)
  | overLimit (limit : Int)
  | exited (status : Int) (summary : String)
  | payload (fault : PayloadFault)
  | refused (message : String)
deriving DecidableEq, Repr

/-- The message for a strategy's failure. -/
def StrategyFailure.message (wording : Wording) : StrategyFailure → String
  | notStarted binary detail => s!"could not start '{binary}': {detail}"
  | overLimit limit => s!"output exceeded {limit} bytes"
  | exited status summary => s!"exited with status {status}: {summary}"
  | payload fault => fault.message wording
  | refused message => message

end PluginContract.Loading

import RevisionLog.Text.Quoted

/-!
# Misconfigurations

Why the settings of a store are refused, and how each reason is told.
-/

namespace RevisionLog

/-- A reason to refuse the settings of a store. -/
inductive Misconfiguration
  /-- a connection string without a path -/
  | noPath (source : String)
  /-- an option without `=` -/
  | malformedOption (option : String)
  /-- a mode that is not in its list -/
  | invalidMode (key value : String) (allowed : List String)
  /-- a timeout that is no number of milliseconds -/
  | invalidTimeout (key value : String)
  /-- a way of locking other than the one there is -/
  | unsupportedLock (value : String)
  /-- a cache that is neither shared nor private -/
  | invalidCache (value : String)
  /-- an option that does not exist -/
  | unknownOption (key : String)
  /-- a scheme for which there is no engine -/
  | unsupportedDriver (driver endpoint : String)
  /-- a pool without connections -/
  | noConnections
  /-- a directory that cannot be made -/
  | noDirectory (directory reason : String)
  /-- a reason given in words -/
  | told (text : String)
  deriving DecidableEq, Repr

namespace Misconfiguration

open Text in
/-- The words for a reason. -/
def message : Misconfiguration → String
  | noPath source => "sqlite connection string " ++ quote source ++ " has no database path"
  | malformedOption option => "malformed sqlite option " ++ quote option
  | invalidMode key value allowed =>
    "invalid " ++ key ++ " value " ++ quote value ++ ", expected one of " ++ quoteList allowed
  | invalidTimeout key value => "invalid " ++ key ++ " value " ++ quote value
  | unsupportedLock value =>
    "unsupported _txlock value " ++ quote value ++ ", only immediate is supported"
  | invalidCache value => "invalid cache value " ++ quote value
  | unknownOption key => "unknown sqlite option " ++ quote key
  | unsupportedDriver driver endpoint => "unsupported driver " ++ quote driver ++ " in endpoint " ++
      quote endpoint
  | noConnections => "max_connections must be at least 1"
  | noDirectory directory reason => "cannot create database directory " ++ directory ++ ": " ++
      reason
  | told text => text

end Misconfiguration

end RevisionLog

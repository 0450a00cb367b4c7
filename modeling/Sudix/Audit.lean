import Sudix.Protocol

/-! The audit log: the outcome tags and the record of one decision. -/

namespace Sudix

inductive Outcome where
  | deniedEmpty
  | deniedReason
  | deniedPolicy
  | deniedCwd
  | deniedRate
  | deniedUser
  | approvedCached (exitCode : Int32)
  | executed (exitCode : Int32)
  | executeError
  | approverError
  deriving DecidableEq

def Outcome.asTagAndExit : Outcome → String × Option Int32
  | .deniedEmpty => ("denied-empty", none)
  | .deniedReason => ("denied-reason", none)
  | .deniedPolicy => ("denied-policy", none)
  | .deniedCwd => ("denied-cwd", none)
  | .deniedRate => ("denied-rate", none)
  | .deniedUser => ("denied-user", none)
  | .approvedCached exitCode => ("approved-cached", some exitCode)
  | .executed exitCode => ("executed", some exitCode)
  | .executeError => ("execute-error", none)
  | .approverError => ("approver-error", none)

/-- One audit record. The one-time code of the request has no field. -/
structure Entry where
  unixSecs : Nat
  callerUid : Uid
  argv : List String
  cwd : String
  reason : String
  outcome : String
  exitCode : Option Int32
  deriving DecidableEq

def Entry.of (unixSecs : Nat) (callerUid : Uid) (req : Request) (outcome : Outcome) : Entry where
  unixSecs := unixSecs
  callerUid := callerUid
  argv := req.argv
  cwd := req.cwd
  reason := req.reason
  outcome := outcome.asTagAndExit.1
  exitCode := outcome.asTagAndExit.2

end Sudix

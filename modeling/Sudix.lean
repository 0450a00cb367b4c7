import Sudix.ConcurrentProgram
import Sudix.ConcurrentRun
import Sudix.Policy
import Sudix.Config
import Sudix.Audit
import Sudix.Approval
import Sudix.Server
import Sudix.ApprovalSpec
import Sudix.ServerSpec
import Sudix.ConcurrentPast
import Sudix.DaemonSteps
import Sudix.TotpSingleUse
import Sudix.Pipeline
import Sudix.Wire
import Sudix.PromptDisplay
import Sudix.ScopingTrace
import Sudix.PipelineGate
import Sudix.SlidingWindow
import Sudix.ScopingLog
import Sudix.PipelineRate
import Sudix.Workers
import Sudix.AgentRegistry
import Sudix.AgentAuthority
import Sudix.PipelineReload
import Sudix.AgentStream
import Sudix.AgentVerdict
import Sudix.Display
import Sudix.PolicyMeaning
import Sudix.AgentSlots
import Sudix.AuditTrail
import Sudix.DialogGate
import Sudix.SingleDialog
import Sudix.ReloadHash
import Sudix.RestartEquivalence
import Sudix.ReloadSpec
import Sudix.SerialReload
import Sudix.JsonGrammar
import Sudix.JsonCompact
import Sudix.Serde
import Sudix.WireLines
import Sudix.PatternGrammar
import Sudix.PatternReading
import Sudix.PatternFragment
import Sudix.Anchoring
import Sudix.ProgramSpelling
import Sudix.ScopeAlignment
import Sudix.RequestFraming
import Sudix.ConcurrentSolo
import Sudix.DecisionRecord
import Sudix.TotpFreshCodes
import Sudix.DialogText
import Sudix.ServingAlike
import Sudix.RefusedRequests
import Sudix.AgentCalls
import Sudix.PromptRouting
import Sudix.PromptsShown
import Sudix.UnaskedErrors
import Sudix.FirstMinute
import Sudix.ClientArgs
import Sudix.ConcurrentTwins
import Sudix.TwinRequests
import Sudix.ApproverAnswers
import Sudix.ConcurrentLocks
import Sudix.LockDiscipline
import Sudix.ConcurrentPermits
import Sudix.ConnectionSlots
import Sudix.ConfigProvenance
import Sudix.ReloadFreshness
import Sudix.Client
import Sudix.Executions
import Sudix.ClientExchange
import Sudix.ConcurrentTally
import Sudix.AuditLedger
import Sudix.ConcurrentRefinement
import Sudix.Agent
import Sudix.AgentSite
import Sudix.AgentRefinement
import Sudix.AgentConsent
import Sudix.AgentAccount
import Sudix.TotpBudget
import Sudix.WorkerPrompts
import Sudix.DaemonConsent
import Sudix.SiteConsent
import Sudix.Base32
import Sudix.EnrolledSecrets

import ServiceShell.Json.Writer
import ServiceShell.Proofs.CacheQueue
import ServiceShell.Proofs.Refusal
import ServiceShell.Rehearsal.Session
import ServiceShell.Stored.Context
import ServiceShell.Proofs.Dispatch
import ServiceShell.Proofs.Overlay
import ServiceShell.Proofs.StandIn
import ServiceShell.Proofs.JobOrder
import ServiceShell.Proofs.Resume
import ServiceShell.Proofs.JobPlan
import ServiceShell.Proofs.Resolution
import ServiceShell.Proofs.Exchange
import ServiceShell.Proofs.Framing
import ServiceShell.Proofs.Course
import ServiceShell.Proofs.LocalJob
import ServiceShell.Proofs.Untouched
import ServiceShell.Proofs.FreshFaults
import ServiceShell.Proofs.DoneThroughout
import ServiceShell.Proofs.Severity
import ServiceShell.Proofs.Travel
import ServiceShell.Proofs.Return
import ServiceShell.Proofs.TieBreaking
import ServiceShell.Proofs.CacheTransparency
import ServiceShell.Proofs.Explained
import ServiceShell.Proofs.Delegation
import ServiceShell.Proofs.Correction
import ServiceShell.Proofs.SortedJob
import ServiceShell.Proofs.Persisted
import ServiceShell.Proofs.StoredForm
import ServiceShell.Proofs.CycleReport
import ServiceShell.Proofs.LocalBlock
import ServiceShell.Proofs.ControlFlow
import ServiceShell.Proofs.Finalization
import ServiceShell.Proofs.Reset
import ServiceShell.Proofs.Exhaustion
import ServiceShell.Proofs.Nesting
import ServiceShell.Proofs.Selection
import ServiceShell.Proofs.OrderLoop
import ServiceShell.Proofs.ActiveFidelity

import DecisionPoint.Cache.Decisions
import DecisionPoint.Cache.Key
import DecisionPoint.Cache.Lru
import DecisionPoint.Config
import DecisionPoint.Deployment
import DecisionPoint.Dialogue
import DecisionPoint.Dispatch
import DecisionPoint.Engine
import DecisionPoint.Error
import DecisionPoint.Evaluation
import DecisionPoint.Json.Binary64
import DecisionPoint.Json.Literal
import DecisionPoint.Json.Number
import DecisionPoint.Json.Printer
import DecisionPoint.Json.Reader
import DecisionPoint.Json.Record
import DecisionPoint.Json.Value
import DecisionPoint.Policy.Actions
import DecisionPoint.Policy.Basic
import DecisionPoint.Policy.Conditions
import DecisionPoint.Policy.Decision
import DecisionPoint.Policy.Document
import DecisionPoint.Policy.Rules
import DecisionPoint.Proofs.Text.Digits
import DecisionPoint.Request
import DecisionPoint.Session
import DecisionPoint.Store
import DecisionPoint.Text.Blank
import DecisionPoint.Text.Digit
import DecisionPoint.Time.Calendar
import DecisionPoint.Time.Instant
import DecisionPoint.Time.TimeOfDay
import DecisionPoint.Time.Timestamp
import DecisionPoint.Toml.Reader
import DecisionPoint.Toml.Scalar
import DecisionPoint.Toml.Value
import DecisionPoint.Verdict
import DecisionPoint.Proofs.Json.Spelling
import DecisionPoint.Proofs.Json.Fields
import DecisionPoint.Proofs.Time.Calendar
import DecisionPoint.Proofs.Time.Instant
import DecisionPoint.Proofs.Time.Timestamp
import DecisionPoint.Proofs.Records
import DecisionPoint.Proofs.Cache.Key
import DecisionPoint.Proofs.Cache.Lru
import DecisionPoint.Proofs.Course
import DecisionPoint.Proofs.Engine
import DecisionPoint.Proofs.Evaluation
import DecisionPoint.Proofs.Run
import DecisionPoint.Proofs.Transparency
import DecisionPoint.Proofs.Choice
import DecisionPoint.Proofs.Documents
import DecisionPoint.Proofs.Sharing
import DecisionPoint.Proofs.Freshness
import DecisionPoint.Proofs.Serving
import DecisionPoint.Proofs.Lifetime
import DecisionPoint.Proofs.Isolation
import DecisionPoint.Proofs.Failure
import DecisionPoint.Proofs.Repetition
import DecisionPoint.Proofs.Cache.History
import DecisionPoint.Proofs.Questions
import DecisionPoint.Proofs.Eviction
import DecisionPoint.Proofs.Winner
import DecisionPoint.Proofs.Traffic
import DecisionPoint.Proofs.Accounting
import DecisionPoint.Proofs.Uninterrupted
import DecisionPoint.Proofs.Requests
import DecisionPoint.Proofs.Fidelity
import DecisionPoint.Proofs.Waiting
import DecisionPoint.Proofs.Awaiting
import DecisionPoint.Proofs.Windows
import DecisionPoint.Proofs.Writing
import DecisionPoint.Proofs.Deadlines
import DecisionPoint.Proofs.Dispatch
import DecisionPoint.Proofs.Workshop
import DecisionPoint.Proofs.Ranking
import DecisionPoint.Proofs.Rules
import DecisionPoint.Proofs.Matching
import DecisionPoint.Proofs.DayRanges
import DecisionPoint.Proofs.Time.Profile
import DecisionPoint.Proofs.Store
import DecisionPoint.Proofs.Time.LocalTime

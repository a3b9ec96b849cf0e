import VibeAudit.Foundation.SortedMap
import VibeAudit.Foundation.Sha256
import VibeAudit.Foundation.HashLink
import VibeAudit.Foundation.BoundedQueue
import VibeAudit.Foundation.Machine
import VibeAudit.Foundation.Calendar
import VibeAudit.Foundation.Text
import VibeAudit.Json.Value
import VibeAudit.Extension.Events
import VibeAudit.Extension.VerifyChain
import VibeAudit.Forwarder.HashChain
import VibeAudit.Forwarder.Writer
import VibeAudit.Forwarder.Processor
import VibeAudit.Forwarder.Run
import VibeAudit.Forwarder.Sensitive
import VibeAudit.Forwarder.WalCapture
import VibeAudit.Chain.Stored
import VibeAudit.Chain.Agreement
import VibeAudit.Chain.Restart
import VibeAudit.Delivery.RetryQueue
import VibeAudit.Delivery.Acceptance
import VibeAudit.Delivery.Flush
import VibeAudit.Delivery.Prefix
import VibeAudit.Delivery.Pipeline
import VibeAudit.Redaction.Change
import VibeAudit.Redaction.Columns
import VibeAudit.Redaction.Documents
import VibeAudit.Foundation.Separated
import VibeAudit.Chain.History
import VibeAudit.Chain.Payload
import VibeAudit.Chain.Tamper
import VibeAudit.Decoding.TestDecoding
import VibeAudit.Decoding.Columns
import VibeAudit.Decoding.Scan
import VibeAudit.Decoding.Layouts
import VibeAudit.Decoding.Names
import VibeAudit.Delivery.Capture
import VibeAudit.Foundation.Utf8
import VibeAudit.Json.Reader
import VibeAudit.Extension.Hooks
import VibeAudit.Hooks.Escape
import VibeAudit.Json.Spans
import VibeAudit.Hooks.Fields
import VibeAudit.Hooks.Documents
import VibeAudit.Hooks.Query
import VibeAudit.Hooks.Names
import VibeAudit.Hooks.Storage
import VibeAudit.Chain.Verdict
import VibeAudit.Redaction.RowOrder
import VibeAudit.Delivery.Counters
import VibeAudit.Foundation.Months
import VibeAudit.Redaction.Refresh
import VibeAudit.Extension.Partitions
import VibeAudit.Partitions.Tiling
import VibeAudit.Partitions.Daily
import VibeAudit.Delivery.Durability
import VibeAudit.Redaction.ChangedFields
import VibeAudit.Redaction.Difference
import VibeAudit.Redaction.Detected
import VibeAudit.Redaction.Paths
import VibeAudit.Redaction.TableKey
import VibeAudit.Foundation.Placeholders
import VibeAudit.Delivery.Statement
import VibeAudit.Delivery.Fallback
import VibeAudit.Extension.EscapeBuffer
import VibeAudit.Hooks.EscapeBuffer
import VibeAudit.Forwarder.Gelf
import VibeAudit.Forwarder.Health
import VibeAudit.Extension.Audit
import VibeAudit.Hooks.Trace
import VibeAudit.Redaction.Secrecy
import VibeAudit.Json.RoundTrip
import VibeAudit.Delivery.Order
import VibeAudit.Delivery.Forwarding
import VibeAudit.Delivery.Blockage
import VibeAudit.Delivery.Faults
import VibeAudit.Delivery.Monitoring
import VibeAudit.Delivery.Refinement
import VibeAudit.Delivery.EndToEnd
import VibeAudit.Delivery.Restarts
import VibeAudit.Delivery.Recovery
import VibeAudit.Delivery.ReadBack
import VibeAudit.Delivery.Once
import VibeAudit.Delivery.Retention
import VibeAudit.Delivery.Secrecy
import VibeAudit.Delivery.StreamCheck
